import Fiskas.Spec.MainV2Program
import Fiskas.Spec.MainV3Program

/-!
# Three writers, one object file

The headers-first writer patches the headers of its file, the serializer with entries fixes
relocations before it dumps, and the present writer knows all values before it streams them. Given
one text and one function, the three files differ in the order of their parts, in their sections and
in the order of their string tables, and a reader takes the same object from each.

## Key results

- `writers_agree`: the three files
-/

namespace Fiskas

open Elf64

/-- Whatever the bytes of the text and the name of the function are, and in whatever order the
    present writer iterates its hash maps: all three writers write a file, and a reader finds the
    text and the function in each of them. -/
theorem writers_agree (o : HashOrders) (textData name : ByteVec) (hname : 0 ∉ name)
    (hsize : 537 + textData.length + name.length < 2 ^ 64) :
    ∃ file₂ dump₃ file, MainV2.Main.program textData name = .ok file₂ ∧
      (({} : MainV3.Serializer).run (MainV3.Main.program textData name)).dumpToFile = .ok dump₃ ∧
      buildElfFile o (functionCode textData name) = some file ∧
      ∀ bytes ∈ [file₂, dump₃.bytes, file],
        readTextObject (str ".text") (str ".symtab") bytes =
          some (functionObject textData name) := by
  have hsize' : 467 + textData.length + name.length < 2 ^ 64 := by omega
  obtain ⟨file₂, hfile₂, hread₂⟩ := MainV2.Main.program_functionObject hname hsize'
  have hbytes := MainV3.Main.bytes_program hsize'
  cases hdump : (({} : MainV3.Serializer).run (MainV3.Main.program textData name)).dumpToFile with
  | error e =>
    rw [hdump] at hbytes
    cases hbytes
  | ok dump₃ =>
    rw [hdump] at hbytes
    have hfile₃ : dump₃.bytes = MainV3.Main.fileOf textData name := Except.ok.inj hbytes
    refine ⟨file₂, dump₃, _, hfile₂, rfl, buildElfFile_eq o _, ?_⟩
    simp only [List.forall_mem_cons, hfile₃]
    exact ⟨hread₂, MainV3.Main.readTextObject_fileOf hname hsize',
      readTextObject_functionCode hname hsize, by simp⟩

/-- The text and the name that both programs have. -/
theorem writers_agree_main :
    ∃ file₂ dump₃ file,
      MainV2.Main.program [0x48, 0xc7, 0xc0, 0x7b, 0x00, 0x00, 0x00, 0xc3]
        (str "test_function_1") = .ok file₂ ∧
      (({} : MainV3.Serializer).run (MainV3.Main.program
        [0x48, 0xc7, 0xc0, 0x7b, 0x00, 0x00, 0x00, 0xc3]
          (str "test_function_1"))).dumpToFile = .ok dump₃ ∧
      buildElfFile .listed (functionCode [0x48, 0xc7, 0xc0, 0x7b, 0x00, 0x00, 0x00, 0xc3]
        (str "test_function_1")) = some file ∧
      ∀ bytes ∈ [file₂, dump₃.bytes, file],
        readTextObject (str ".text") (str ".symtab") bytes =
          some (functionObject [0x48, 0xc7, 0xc0, 0x7b, 0x00, 0x00, 0x00, 0xc3]
            (str "test_function_1")) :=
  writers_agree .listed _ _ (by decide) (by decide)

end Fiskas

import Fiskas.Elf64.Reader

/-!
# Object files without data

What a linker takes from an object file that has code and symbols only.

## Key results

- `readSections_of_isAt`: section headers that stand one behind another are read
- `HasSections.readTextObject_eq`: the object in a file whose sections are known
-/

namespace Elf64

open Slice LittleEndian

/-- Section headers that stand one behind another where the file header says are read. -/
theorem readSections_of_isAt {file : List Byte} {hdr : FileHeader} {secs : List SectionHeader}
    (h : IsAt file hdr.shoff (secs.map SectionHeader.bytes).flatten) (hentsize : hdr.shentsize = 64)
    (hnum : hdr.shnum = secs.length) (hfits : ∀ sec ∈ secs, RecordFits sec.fields) :
    readSections file hdr = some secs := by
  rw [readSections, hnum]
  apply List.mapM_eq_some_of_forall₂
  rw [List.forall₂_iff_get]
  refine ⟨List.length_range, fun i _ hi => ?_⟩
  rw [List.get_eq_getElem, List.get_eq_getElem, List.getElem_range]
  have hget : (secs.map SectionHeader.bytes)[i]? = some secs[i].bytes := by
    rw [List.getElem?_map, List.getElem?_eq_getElem hi]
    rfl
  have hat := h.trans (isAt_flatten_of_length (SectionHeader.length_of_mem secs) hget)
  rw [Nat.mul_comm i 64, ← hentsize] at hat
  exact readSectionHeader_of_isAt hat (hfits _ (List.getElem_mem hi))

/-- The body of `.text` with the index of that section, the symbols of `.symtab`, and its
    `sh_info`. -/
structure TextObject where
  text : List Byte
  textIdx : Nat
  symbols : List Symbol
  info : Nat
deriving DecidableEq, Repr

/-- Read an object file whose sections of interest have the given names. -/
def readTextObject (textName symtabName file : List Byte) : Option TextObject := do
  let hdr ← readFileHeader file
  let secs ← readSections file hdr
  let textIdx ← secs.findIdx? fun sec => sectionName file hdr secs sec = some textName
  let textSec ← secs[textIdx]?
  let text ← sectionBody file textSec
  let symtab ← findSection file hdr secs symtabName
  let body ← sectionBody file symtab
  let records ← cut body symtab.entsize
  let strtabSec ← secs[symtab.link]?
  let strtab ← sectionBody file strtabSec
  let symbols ← records.mapM (readSymbol strtab)
  return { text, textIdx, symbols, info := symtab.info }

/-! ## Files with known sections -/

/-- The sections of a file, listed as `tys`, have these names and bodies. -/
structure HasSections {α : Type} (file : List Byte) (hdr : FileHeader) (secs : List SectionHeader)
    (tys : List α) (name body : α → List Byte) : Prop where
  header : readFileHeader file = some hdr
  sections : readSections file hdr = some secs
  found : List.Forall₂ (fun sec ty => sectionName file hdr secs sec = some (name ty) ∧
    sectionBody file sec = some (body ty)) secs tys

namespace HasSections

variable {α : Type} {file : List Byte} {hdr : FileHeader} {secs : List SectionHeader}
  {tys : List α} {name body : α → List Byte} (h : HasSections file hdr secs tys name body)

include h

/-- The body of the section at an index. -/
theorem sectionBody_of_getElem? {i : Nat} {ty : α} (hi : tys[i]? = some ty) :
    ∃ sec, secs[i]? = some sec ∧ sectionBody file sec = some (body ty) := by
  obtain ⟨hlt, hty⟩ := List.getElem?_eq_some_iff.mp hi
  have hlt' : i < secs.length := h.found.length_eq ▸ hlt
  have hfound := (List.forall₂_iff_get.mp h.found).2 i hlt' hlt
  refine ⟨secs[i], List.getElem?_eq_getElem hlt', ?_⟩
  rw [← hty]
  exact hfound.2

/-- A section is looked up by its name. -/
theorem findIdx?_sectionName (wanted : List Byte) :
    (secs.findIdx? fun sec => sectionName file hdr secs sec = some wanted) =
      tys.findIdx? fun ty => name ty = wanted :=
  List.findIdx?_of_forall₂ h.found fun sec ty hsec => by
    rw [hsec.1]
    exact decide_eq_decide.mpr Option.some_inj

theorem findSection_eq {wanted : List Byte} {i : Nat} {sec : SectionHeader}
    (hi : (tys.findIdx? fun ty => name ty = wanted) = some i) (hsec : secs[i]? = some sec) :
    findSection file hdr secs wanted = some sec := by
  rw [← h.findIdx?_sectionName] at hi
  rw [findSection]
  exact List.find?_of_findIdx? hi hsec

/-- What a reader takes from the file, when the section that the symbol table is linked to has the
    names of its symbols. -/
theorem readTextObject_eq {textName symtabName : List Byte} {textIdx symtabIdx : Nat}
    {text symtab strtab : α} {sec : SectionHeader} {records : List SymbolRecord}
    {symbols : List Symbol}
    (htext : (tys.findIdx? fun ty => name ty = textName) = some textIdx)
    (htextAt : tys[textIdx]? = some text)
    (hsymtab : (tys.findIdx? fun ty => name ty = symtabName) = some symtabIdx)
    (hsymtabAt : tys[symtabIdx]? = some symtab) (hsec : secs[symtabIdx]? = some sec)
    (hentsize : sec.entsize = 24) (hlink : tys[sec.link]? = some strtab)
    (hbody : body symtab = (records.map SymbolRecord.bytes).flatten)
    (hread : (records.map SymbolRecord.bytes).mapM (readSymbol (body strtab)) = some symbols) :
    readTextObject textName symtabName file =
      some { text := body text, textIdx, symbols, info := sec.info } := by
  obtain ⟨textSec, htextSec, htextBody⟩ := h.sectionBody_of_getElem? htextAt
  obtain ⟨strtabSec, hstrtabSec, hstrtabBody⟩ := h.sectionBody_of_getElem? hlink
  obtain ⟨sec', hsec', hsymtabBody⟩ := h.sectionBody_of_getElem? hsymtabAt
  obtain rfl : sec = sec' := Option.some.inj (hsec.symm.trans hsec')
  have hrecords : cut (records.map SymbolRecord.bytes).flatten 24 =
      some (records.map SymbolRecord.bytes) :=
    cut_flatten (by decide) (SymbolRecord.length_of_mem _)
  rw [hbody] at hsymtabBody
  -- The reader, step by step.
  rw [readTextObject, h.header]
  simp only [Option.bind_eq_bind, Option.bind_some, h.sections, h.findIdx?_sectionName, htext,
    htextSec, htextBody, h.findSection_eq hsymtab hsec, hsymtabBody, hentsize, hrecords,
    hstrtabSec, hstrtabBody, hread]
  rfl

end HasSections

end Elf64

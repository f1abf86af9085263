import Fiskas.Native.ElfTypes

/-!
# Serializer

`elf/serializer.hh` and `lib/elf/serializer.cc`: the overloads of `operator<<` that append
values to the output of a serializer. The overloads are instances of `<<<`.
-/

namespace Fiskas

structure Serializer where
  out : ByteVec := []
deriving DecidableEq, Repr

namespace Serializer

/-- The loop of `operator<<(T value)` for an unsigned `T`, with as many rounds as `T` has
    bytes: push the lowest byte, shift it out. -/
def pushBytes {w : Nat} (out : ByteVec) (value : BitVec w) : Nat → ByteVec
  | 0 => out
  | n + 1 => pushBytes (out ++ [(value &&& 0xff).setWidth 8]) (value >>> 8) n

/-- `operator<<(T value)` for an unsigned integer. -/
instance (w : Nat) : HShiftLeft Serializer (BitVec w) Serializer where
  hShiftLeft ser value := { out := pushBytes ser.out value (w / 8) }

/-- `operator<<(const std::vector<T> &data)`. -/
instance (T : Type) [HShiftLeft Serializer T Serializer] :
    HShiftLeft Serializer (List T) Serializer where
  hShiftLeft ser data := data.foldl (fun ser elem => ser <<< elem) ser

/-- `operator<<(std::span<const u8> data)`, for an array. -/
instance (n : Nat) : HShiftLeft Serializer (Vector U8 n) Serializer where
  hShiftLeft ser data := { out := extend ser.out data.toList }

instance : HShiftLeft Serializer ElfHeader Serializer where
  hShiftLeft ser elfHeader :=
    ser <<< elfHeader.eIdent
      <<< elfHeader.eType
      <<< elfHeader.eMachine
      <<< elfHeader.eVersion
      <<< elfHeader.eEntry
      <<< elfHeader.ePhoff
      <<< elfHeader.eShoff
      <<< elfHeader.eFlags
      <<< elfHeader.eEhsize
      <<< elfHeader.ePhentsize
      <<< elfHeader.ePhnum
      <<< elfHeader.eShentsize
      <<< elfHeader.eShnum
      <<< elfHeader.eShstrndx

instance : HShiftLeft Serializer Symbol Serializer where
  hShiftLeft ser sym :=
    ser <<< sym.stName
      <<< sym.stInfo
      <<< sym.stOther
      <<< sym.stShndx
      <<< sym.stValue
      <<< sym.stSize

instance : HShiftLeft Serializer SectionHeader Serializer where
  hShiftLeft ser header :=
    ser <<< header.shName
      <<< header.shType
      <<< header.shFlags
      <<< header.shAddr
      <<< header.shOffset
      <<< header.shSize
      <<< header.shLink
      <<< header.shInfo
      <<< header.shAddralign
      <<< header.shEntsize

end Serializer

end Fiskas

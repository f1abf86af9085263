import Fiskas.Elf64.Reader

/-!
# Rows of records

What a reader makes of records that stand one behind another: file headers, section headers,
symbol records, little-endian numbers and stretches of plain bytes, in any order. The reader
is told the kinds of the records and finds each one behind the one before it.

## Key results

- `Item.length_bytes`: a record is as long as its kind says
- `readItems_of_isAt`: records that stand in a file are read, one by one
-/

namespace Elf64

open Slice LittleEndian

/-- A record as a reader sees it. -/
inductive Item where
  | fileHeader (ident : List Byte) (hdr : FileHeader)
  | sectionHeader (sec : SectionHeader)
  | symbol (sym : SymbolRecord)
  | number (width x : Nat)
  | raw (data : List Byte)
deriving DecidableEq, Repr

/-- What a reader is told about a record: which one it is, and how long it is where that is
    left open. -/
inductive Kind where
  | fileHeader | sectionHeader | symbol
  | number (width : Nat)
  | raw (len : Nat)
deriving DecidableEq, Repr

/-- The number of bytes of a record. -/
def Kind.size : Kind → Nat
  | .fileHeader => 64
  | .sectionHeader => 64
  | .symbol => 24
  | .number width => width
  | .raw len => len

/-- Read the bytes of one record. -/
def Kind.read (kind : Kind) (part : List Byte) : Option Item :=
  match kind with
  | .fileHeader => (readFileHeader part).map (.fileHeader (part.take 16))
  | .sectionHeader => (readSectionHeader part 0).map .sectionHeader
  | .symbol => (readSymbolRecord part 0).map .symbol
  | .number width => (readNat part 0 width).map (.number width)
  | .raw _ => some (.raw part)

/-- Read records of the given kinds from a position on. -/
def readItems (file : List Byte) : Nat → List Kind → Option (List Item)
  | _, [] => some []
  | pos, kind :: kinds => do
    let part ← slice file pos kind.size
    let item ← kind.read part
    let items ← readItems file (pos + kind.size) kinds
    return item :: items

namespace Item

/-- The bytes of a record. -/
def bytes : Item → List Byte
  | .fileHeader ident hdr => ident ++ hdr.bytes
  | .sectionHeader sec => sec.bytes
  | .symbol sym => sym.bytes
  | .number width x => LittleEndian.bytes width x
  | .raw data => data

/-- The kind of a record. -/
def kind : Item → Kind
  | .fileHeader _ _ => .fileHeader
  | .sectionHeader _ => .sectionHeader
  | .symbol _ => .symbol
  | .number width _ => .number width
  | .raw data => .raw data.length

/-- The fields of a record fit their widths, and the identification of a file header has its
    16 bytes. -/
def Fits : Item → Prop
  | .fileHeader ident hdr => ident.length = 16 ∧ RecordFits hdr.fields
  | .sectionHeader sec => RecordFits sec.fields
  | .symbol sym => RecordFits sym.fields
  | .number width x => x < 256 ^ width
  | .raw _ => True

/-- A record is as long as its kind says. -/
theorem length_bytes {item : Item} (h : item.Fits) : item.bytes.length = item.kind.size := by
  cases item with
  | fileHeader ident hdr =>
    show (ident ++ hdr.bytes).length = 64
    rw [List.length_append, h.1, FileHeader.length_bytes]
  | sectionHeader sec => exact SectionHeader.length_bytes sec
  | symbol sym => exact SymbolRecord.length_bytes sym
  | number width x => exact LittleEndian.length_bytes width x
  | raw data => rfl

/-- A record is read from its bytes. -/
theorem read_bytes {item : Item} (h : item.Fits) : item.kind.read item.bytes = some item := by
  cases item with
  | fileHeader ident hdr =>
    -- The fields of the file header stand behind the 16 bytes of the identification.
    have hat : IsAt (ident ++ hdr.bytes) 16 hdr.bytes := ⟨ident, [], by simp, h.1⟩
    have htake : (ident ++ hdr.bytes).take 16 = ident := by rw [← h.1, List.take_left]
    show (readFileHeader (ident ++ hdr.bytes)).map
      (Item.fileHeader ((ident ++ hdr.bytes).take 16)) = _
    rw [readFileHeader_of_isAt hat h.2, htake, Option.map_some]
  | sectionHeader sec =>
    show (readSectionHeader sec.bytes 0).map Item.sectionHeader = _
    rw [readSectionHeader_of_isAt (.refl _) h, Option.map_some]
  | symbol sym =>
    show (readSymbolRecord sym.bytes 0).map Item.symbol = _
    rw [readSymbolRecord_of_isAt (.refl _) h, Option.map_some]
  | number width x =>
    show (readNat (LittleEndian.bytes width x) 0 width).map (Item.number width) = _
    rw [readNat_of_isAt (.refl _) h, Option.map_some]
  | raw data => rfl

end Item

/-- Records that stand in a file one behind another are read, one by one. -/
theorem readItems_of_isAt {file : List Byte} {pos : Nat} {items : List Item}
    (h : IsAt file pos (items.map Item.bytes).flatten) (hfits : ∀ item ∈ items, item.Fits) :
    readItems file pos (items.map Item.kind) = some items := by
  induction items generalizing pos with
  | nil => rfl
  | cons item items ih =>
    have hitem := hfits item List.mem_cons_self
    rw [List.map_cons, List.flatten_cons] at h
    -- The first record stands at the position itself, the others behind it.
    have hfirst : IsAt file pos item.bytes := h.trans (.intro [] item.bytes _)
    have hrest : IsAt file (pos + item.kind.size) (items.map Item.bytes).flatten := by
      rw [← Item.length_bytes hitem]
      exact h.trans ⟨item.bytes, [], by simp, rfl⟩
    have hslice : slice file pos item.kind.size = some item.bytes :=
      slice_eq_some.mpr ⟨hfirst, Item.length_bytes hitem⟩
    have hitems := ih hrest fun item' hmem => hfits item' (List.mem_cons_of_mem item hmem)
    rw [List.map_cons, readItems, hslice]
    simp only [Option.bind_eq_bind, Option.bind_some, Item.read_bytes hitem, hitems]
    rfl

end Elf64

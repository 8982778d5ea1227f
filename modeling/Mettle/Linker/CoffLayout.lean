import Mettle.Linker.Coff

/-!
# What a COFF file says

The layout of a COFF object as relations between the bytes of a file and the values they stand for: no order of
reading, no check and no error, only which bytes lie where. Where the tables are is a parameter, since the reader
does not look for all of them at the places that the file header gives.
-/

namespace Mettle.Linker

open Mettle.Bytes

/-! ## Names -/

/-- A name in the string table: the bytes from its offset up to the next zero. -/
def NameAt (stringTable : Option Buffer) (offset : ℕ) (name : Buffer) : Prop :=
  ∃ table rest, stringTable = some table ∧ 4 ≤ offset ∧ table.drop offset = name ++ 0 :: rest ∧ 0 ∉ name

/-- The number that decimal digits spell, the first of them being the most significant. -/
def decimal (digits : Buffer) : ℕ := Nat.ofDigits 10 (digits.reverse.map fun d => d.toNat - 48)

/-- The field is a slash and a decimal number, padded with zero. -/
def SlashNumber (field : Buffer) (n : ℕ) : Prop :=
  ∃ digits pad, field = 47 :: (digits ++ pad) ∧ (∀ d ∈ digits, isDigit d = true) ∧ (∀ b ∈ pad.head?, b = 0) ∧
    n = decimal digits

/-- The name in a field of eight bytes: the bytes before the first zero, or those of the string table at the number
behind a slash. -/
inductive SectionName (stringTable : Option Buffer) (field : Buffer) : Buffer → Prop
  | short (h : ∀ n, ¬ SlashNumber field n) : SectionName stringTable field (cString field)
  | long {n : ℕ} {name : Buffer} (h : SlashNumber field n) (hname : NameAt stringTable n name) :
    SectionName stringTable field name

/-- The name of a symbol at `i`: eight bytes, or four zeros and an offset that is not zero. -/
inductive SymbolName (data : Buffer) (stringTable : Option Buffer) (i : ℕ) : Buffer → Prop
  | short {first second : BitVec 32} (hfirst : WordAt data i 4 first) (hsecond : WordAt data (i + 4) 4 second)
      (h : ¬ (first = 0 ∧ second ≠ 0)) : SymbolName data stringTable i (cString (readAt data i 8))
  | long {offset : BitVec 32} {name : Buffer} (hfirst : WordAt data i 4 0) (hsecond : WordAt data (i + 4) 4 offset)
      (h : offset ≠ 0) (hname : NameAt stringTable offset.toNat name) : SymbolName data stringTable i name

/-! ## The string table -/

/-- The string table at a place, none being there when the file ends or its size is zero. -/
inductive StringTableAt (data : Buffer) : Option ℕ → Option Buffer → Prop
  | absent : StringTableAt data none none
  | fileEnds : StringTableAt data (some data.length) none
  | empty {i : ℕ} (hsize : WordAt data i 4 0) : StringTableAt data (some i) none
  | table {i : ℕ} {size : BitVec 32} (hsize : WordAt data i 4 size) (hmin : 4 ≤ size.toNat)
      (hwithin : i + size.toNat ≤ data.length) : StringTableAt data (some i) (some (readAt data i size.toNat))

/-! ## The sections -/

structure RelocationAt (data : Buffer) (i : ℕ) (r : CoffRelocation) : Prop where
  virtualAddress : WordAt data i 4 r.virtualAddress
  symbolTableIndex : WordAt data (i + 4) 4 r.symbolTableIndex
  type : WordAt data (i + 8) 2 r.type

/-- Relocations one after another from `i` on. -/
def RelocationsFrom (data : Buffer) (i : ℕ) (relocations : List CoffRelocation) : Prop :=
  ∀ (k : ℕ) (r : CoffRelocation), relocations[k]? = some r → RelocationAt data (i + k * coffRelocationSize) r

/-- The relocations of a section. In the extended form the first record only holds the number of records, itself
among them. -/
inductive RelocationsAt (data : Buffer) (h : CoffSectionHeader) : List CoffRelocation → Prop
  | plain {relocations : List CoffRelocation} (hform : ¬ h.Extended)
      (hcount : relocations.length = h.numberOfRelocations.toNat)
      (hrecords : RelocationsFrom data h.pointerToRelocations.toNat relocations) : RelocationsAt data h relocations
  | extended {relocations : List CoffRelocation} {stored : BitVec 32} (hform : h.Extended)
      (hfirst : h.pointerToRelocations.toNat + coffRelocationSize ≤ data.length)
      (hstored : WordAt data h.pointerToRelocations.toNat 4 stored) (hcount : relocations.length + 1 = stored.toNat)
      (hrecords : RelocationsFrom data (h.pointerToRelocations.toNat + coffRelocationSize) relocations) :
    RelocationsAt data h relocations

/-- The bytes of a section, where it has a size and a place. -/
inductive RawDataAt (data : Buffer) (h : CoffSectionHeader) : Option Buffer → Prop
  | none (hform : h.sizeOfRawData = 0 ∨ h.pointerToRawData = 0) : RawDataAt data h none
  | bytes (hsize : h.sizeOfRawData ≠ 0) (hpointer : h.pointerToRawData ≠ 0)
      (hwithin : h.pointerToRawData.toNat + h.sizeOfRawData.toNat ≤ data.length) :
    RawDataAt data h (some (readAt data h.pointerToRawData.toNat h.sizeOfRawData.toNat))

/-- The fields of a section header at `i`, the name apart. -/
structure SectionFieldsAt (data : Buffer) (i : ℕ) (h : CoffSectionHeader) : Prop where
  virtualSize : WordAt data (i + 8) 4 h.virtualSize
  virtualAddress : WordAt data (i + 12) 4 h.virtualAddress
  sizeOfRawData : WordAt data (i + 16) 4 h.sizeOfRawData
  pointerToRawData : WordAt data (i + 20) 4 h.pointerToRawData
  pointerToRelocations : WordAt data (i + 24) 4 h.pointerToRelocations
  pointerToLineNumbers : WordAt data (i + 28) 4 h.pointerToLineNumbers
  numberOfRelocations : WordAt data (i + 32) 2 h.numberOfRelocations
  numberOfLineNumbers : WordAt data (i + 34) 2 h.numberOfLineNumbers
  characteristics : WordAt data (i + 36) 4 h.characteristics

/-- A section header at `i`. -/
structure SectionHeaderAt (data : Buffer) (stringTable : Option Buffer) (i : ℕ) (h : CoffSectionHeader) : Prop where
  name : SectionName stringTable (readAt data i 8) h.name
  fields : SectionFieldsAt data i h

/-- What a section header leads to: bytes and relocations, and the kind that the name and these give. -/
structure SectionContents (data : Buffer) (s : CoffSection) : Prop where
  rawData : RawDataAt data s.toCoffSectionHeader s.rawData
  relocations : RelocationsAt data s.toCoffSectionHeader s.relocations
  kind : s.kind = coffReaderKind s.toCoffSectionHeader s.rawData s.relocations

/-- The section whose header is at `i`. -/
def SectionAt (data : Buffer) (stringTable : Option Buffer) (i : ℕ) (s : CoffSection) : Prop :=
  SectionHeaderAt data stringTable i s.toCoffSectionHeader ∧ SectionContents data s

/-! ## The symbols -/

/-- What a symbol takes from the auxiliary record at `i`. -/
structure AuxiliaryFieldsAt (data : Buffer) (i : ℕ) (s : CoffSymbol) : Prop where
  sectionLength : WordAt data i 4 s.auxSectionLength
  relocationCount : WordAt data (i + 4) 2 s.auxSectionRelocationCount
  lineNumberCount : WordAt data (i + 6) 2 s.auxSectionLineNumberCount

/-- The fields of a symbol record at `i`, the name apart. -/
structure SymbolFieldsAt (data : Buffer) (i : ℕ) (s : CoffSymbol) : Prop where
  value : WordAt data (i + 8) 4 s.value
  sectionNumber : WordAt data (i + 12) 2 s.sectionNumber
  type : WordAt data (i + 14) 2 s.type
  storageClass : WordAt data (i + 16) 1 s.storageClass
  auxiliaryCount : WordAt data (i + 17) 1 s.auxiliaryCount

/-- The symbol with the number `k` whose record is at `i`, with the auxiliary record behind it when it has one. -/
structure SymbolAt (data : Buffer) (stringTable : Option Buffer) (i k : ℕ) (s : CoffSymbol) : Prop where
  rawIndex : s.rawIndex = BitVec.ofNat 32 k
  primarySymbolIndex : s.primarySymbolIndex = BitVec.ofNat 32 k
  isAuxiliary : s.isAuxiliary = false
  name : ∃ name, s.name = some name ∧ SymbolName data stringTable i name
  fields : SymbolFieldsAt data i s
  hasAuxiliaryRecord : s.hasAuxiliaryRecord = decide (0 < s.auxiliaryCount.toNat)
  auxiliary : 0 < s.auxiliaryCount.toNat → AuxiliaryFieldsAt data (i + coffSymbolSize) s
  noAuxiliary : s.auxiliaryCount.toNat = 0 →
    s.auxSectionLength = 0 ∧ s.auxSectionRelocationCount = 0 ∧ s.auxSectionLineNumberCount = 0

/-- The records from the one with the number `k` to the last: a symbol, as many auxiliary records as it says, and
so on. -/
inductive SymbolsFrom (data : Buffer) (stringTable : Option Buffer) (base count : ℕ) : ℕ → List CoffSymbol → Prop
  | done : SymbolsFrom data stringTable base count count []
  | symbol {k : ℕ} {s : CoffSymbol} {rest : List CoffSymbol}
      (hsymbol : SymbolAt data stringTable (base + k * coffSymbolSize) k s)
      (hfits : k + 1 + s.auxiliaryCount.toNat ≤ count)
      (hrest : SymbolsFrom data stringTable base count (k + 1 + s.auxiliaryCount.toNat) rest) :
    SymbolsFrom data stringTable base count k
      (s :: ((List.range s.auxiliaryCount.toNat).map (fun j => auxiliarySymbol k (k + 1 + j)) ++ rest))

/-- The symbol table at a place, with as many records as the file header says. -/
inductive SymbolsAt (data : Buffer) (h : CoffFileHeader) (stringTable : Option Buffer) :
    Option ℕ → List CoffSymbol → Prop
  | absent : SymbolsAt data h stringTable none []
  | table {base : ℕ} {symbols : List CoffSymbol}
      (hwithin : h.symbolCount ≠ 0 → base + h.symbolCount.toNat * coffSymbolSize ≤ data.length)
      (hsymbols : SymbolsFrom data stringTable base h.symbolCount.toNat 0 symbols) :
    SymbolsAt data h stringTable (some base) symbols

/-! ## The object -/

structure FileHeaderAt (data : Buffer) (h : CoffFileHeader) : Prop where
  machine : WordAt data 0 2 h.machine
  sectionCount : WordAt data 2 2 h.sectionCount
  timeDateStamp : WordAt data 4 4 h.timeDateStamp
  pointerToSymbolTable : WordAt data 8 4 h.pointerToSymbolTable
  symbolCount : WordAt data 12 4 h.symbolCount
  sizeOfOptionalHeader : WordAt data 16 2 h.sizeOfOptionalHeader
  characteristics : WordAt data 18 2 h.characteristics

/-- Where the section table and the symbol table are looked for. -/
structure CoffPlaces where
  sectionTable : ℕ
  symbolTable : Option ℕ

/-- The places that the file header gives: the section table comes behind the optional header, and there is no
symbol table where the pointer to it is zero. -/
def CoffFileHeader.places (h : CoffFileHeader) : CoffPlaces where
  sectionTable := coffFileHeaderSize + h.sizeOfOptionalHeader.toNat
  symbolTable := if h.pointerToSymbolTable = 0 then none else some h.pointerToSymbolTable.toNat

/-- The places where the reader looks. -/
def CoffFileHeader.readPlaces (h : CoffFileHeader) : CoffPlaces where
  sectionTable := coffFileHeaderSize
  symbolTable := some h.pointerToSymbolTable.toNat

/-- The object is what the bytes of the file say, with the tables at given places. The string table follows the
symbol table. -/
structure Decodes (data : Buffer) (places : CoffPlaces) (object : CoffObject) : Prop where
  header : FileHeaderAt data object.toCoffFileHeader
  machine : object.machine = coffMachineAmd64
  stringTable : StringTableAt data
    (places.symbolTable.map (· + object.symbolCount.toNat * coffSymbolSize)) object.stringTable
  sectionCount : object.sections.length = object.sectionCount.toNat
  sections : ∀ (i : ℕ) (s : CoffSection), object.sections[i]? = some s →
    SectionAt data object.stringTable (places.sectionTable + i * coffSectionHeaderSize) s
  symbols : SymbolsAt data object.toCoffFileHeader object.stringTable places.symbolTable object.symbols

end Mettle.Linker

import Mettle.Lib.Reader

/-!
# The COFF reader

An object file is read from a buffer that holds all of it (`linker/coff_reader.c`): the file header, the string
table behind the symbol table, the section table with each section's bytes and relocations, and the symbols with
their auxiliary records. Offsets and counts are those of the headers, and a reader either gives a value, rejects
the file, or leaves the buffer. Sizes are those of a machine with 64-bit `size_t` and `long`.
-/

namespace Mettle.Linker

open Mettle.Bytes

def coffFileHeaderSize : ℕ := 20
def coffSectionHeaderSize : ℕ := 40
def coffSymbolSize : ℕ := 18
def coffRelocationSize : ℕ := 10

def coffMachineAmd64 : BitVec 16 := 0x8664

/-- `CoffSectionKind`. -/
inductive CoffSectionKind
  | unknown
  | text
  | rdata
  | data
  | bss
  | pdata
  | xdata
  deriving DecidableEq, Repr

/-- `CoffRelocation`. -/
structure CoffRelocation where
  virtualAddress : BitVec 32
  symbolTableIndex : BitVec 32
  type : BitVec 16
  deriving DecidableEq, Repr

/-- The fields of `CoffSection` that its header in the file holds. -/
structure CoffSectionHeader where
  name : Buffer
  virtualSize : BitVec 32
  virtualAddress : BitVec 32
  sizeOfRawData : BitVec 32
  pointerToRawData : BitVec 32
  pointerToRelocations : BitVec 32
  pointerToLineNumbers : BitVec 32
  numberOfRelocations : BitVec 16
  numberOfLineNumbers : BitVec 16
  characteristics : BitVec 32
  deriving DecidableEq, Repr

/-- `CoffSection`. -/
structure CoffSection extends CoffSectionHeader where
  kind : CoffSectionKind
  rawData : Option (Buffer)
  relocations : List CoffRelocation
  deriving DecidableEq, Repr

/-- `CoffSymbol`. The section number is read as a signed one. -/
@[ext] structure CoffSymbol where
  rawIndex : BitVec 32
  name : Option (Buffer) := none
  value : BitVec 32 := 0
  sectionNumber : BitVec 16 := 0
  type : BitVec 16 := 0
  storageClass : BitVec 8 := 0
  auxiliaryCount : BitVec 8 := 0
  isAuxiliary : Bool := false
  primarySymbolIndex : BitVec 32
  hasAuxiliaryRecord : Bool := false
  auxSectionLength : BitVec 32 := 0
  auxSectionRelocationCount : BitVec 16 := 0
  auxSectionLineNumberCount : BitVec 16 := 0
  deriving DecidableEq, Repr

/-- The fields of `CoffObject` that the file header holds. -/
structure CoffFileHeader where
  machine : BitVec 16
  sectionCount : BitVec 16
  timeDateStamp : BitVec 32
  pointerToSymbolTable : BitVec 32
  symbolCount : BitVec 32
  sizeOfOptionalHeader : BitVec 16
  characteristics : BitVec 16
  deriving DecidableEq, Repr

/-- `CoffObject`. -/
structure CoffObject extends CoffFileHeader where
  sections : List CoffSection
  symbols : List CoffSymbol
  stringTable : Option (Buffer)
  deriving DecidableEq, Repr

/-- What the reader reports, with the values its message shows. -/
inductive CoffError
  | smallerThanFileHeader
  | unsupportedMachine (machine : BitVec 16)
  | symbolCountOverflows
  | stringTableOffsetOutOfRange
  | stringTableHeaderTruncated
  | stringTableSizeInvalid
  | stringTablePastEnd
  | sectionTableTruncated
  | sectionNameUnresolved (number : ℕ)
  | rawDataOutOfRange (name : Buffer)
  | overflowHeaderOutOfRange (name : Buffer)
  | overflowCountInvalid (name : Buffer)
  | relocationTableOutOfRange (name : Buffer)
  | symbolTableOutOfRange
  | symbolNameUnresolved (index : ℕ)
  | auxiliaryTruncated (name : Option (Buffer))
  deriving DecidableEq, Repr

abbrev CoffRead := Except (Failure CoffError)

/-! ## Words and names -/

/-- `linker_read_u16`. -/
def linkerReadU16 (data : Buffer) (i : ℕ) : CoffRead (BitVec 16) := readWord 2 data i

/-- `linker_read_u32`. -/
def linkerReadU32 (data : Buffer) (i : ℕ) : CoffRead (BitVec 32) := readWord 4 data i

/-- `data[i]`. -/
def linkerReadU8 (data : Buffer) (i : ℕ) : CoffRead (BitVec 8) := readWord 1 data i

/-- The string that a zero-terminated buffer holds. -/
def cString (bytes : Buffer) : Buffer := bytes.takeWhile (· ≠ 0)

/-- `coff_reader_dup_bytes_trimmed`, as the string that the copy is. -/
def coffReaderDupBytesTrimmed (bytes : Buffer) : Buffer := cString (bytes.rdropWhile (· = 0))

/-- `coff_reader_dup_cstring_range`. -/
def coffReaderDupCstringRange (bytes : Buffer) : Option (Buffer) :=
  let length := (cString bytes).length
  if length = bytes.length then none else some (bytes.take length)

/-- `coff_reader_range_ok`. -/
def coffReaderRangeOk (fileSize : ℕ) (offset : BitVec 32) (length : ℕ) : Bool :=
  if offset.toNat > fileSize then false
  else if length > fileSize - offset.toNat then false
  else true

/-- `coff_reader_string_from_table`. -/
def coffReaderStringFromTable (stringTable : Option (Buffer)) (offset : BitVec 32) : Option (Buffer) :=
  match stringTable with
  | none => none
  | some table =>
    if table.length < 4 then none
    else if offset.toNat < 4 ∨ offset.toNat ≥ table.length then none
    else coffReaderDupCstringRange (table.drop offset.toNat)

/-- `isdigit`. -/
def isDigit (b : BitVec 8) : Bool := 48 ≤ b ∧ b ≤ 57

/-- The loop of `coff_reader_parse_section_name`: the number behind the slash, up to a zero or the end, or none
where something else than a digit is met. -/
def sectionNameOffset : Buffer → BitVec 32 → Option (BitVec 32)
  | [], offset => some offset
  | b :: rest, offset =>
    if b = 0 then some offset
    else if isDigit b then sectionNameOffset rest (offset * 10 + (b - 48).setWidth 32)
    else none

/-- `coff_reader_parse_section_name`. -/
def coffReaderParseSectionName (data : Buffer) (i : ℕ) (stringTable : Option (Buffer)) :
    CoffRead (Option (Buffer)) := do
  let field ← bytesAt data i 8
  match field with
  | [] => pure (some [])
  | b :: rest =>
    -- 47 is the slash
    if b = 47 then
      match sectionNameOffset rest 0 with
      | none => pure (some (coffReaderDupBytesTrimmed field))
      | some offset => pure (coffReaderStringFromTable stringTable offset)
    else pure (some (coffReaderDupBytesTrimmed field))

/-- `coff_reader_parse_symbol_name`. -/
def coffReaderParseSymbolName (data : Buffer) (i : ℕ) (stringTable : Option (Buffer)) :
    CoffRead (Option (Buffer)) := do
  let zeroPrefix ← linkerReadU32 data i
  let offset ← linkerReadU32 data (i + 4)
  if zeroPrefix = 0 ∧ offset ≠ 0 then pure (coffReaderStringFromTable stringTable offset)
  else do
    let field ← bytesAt data i 8
    pure (some (coffReaderDupBytesTrimmed field))

def asciiBytes (chars : List Char) : Buffer := chars.map fun c => BitVec.ofNat 8 c.toNat

/-- `coff_section_name_matches_prefix`: the name goes on with nothing, a dollar sign or a dot. -/
def coffSectionNameMatchesPrefix (name : Buffer) (chars : List Char) : Bool :=
  (asciiBytes chars).isPrefixOf name &&
    match name.drop chars.length with
    | [] => true
    | suffix :: _ => suffix = 36 ∨ suffix = 46

/-- `coff_section_kind_from_name`. -/
def coffSectionKindFromName (name : Buffer) : CoffSectionKind :=
  if name.head? ≠ some 46 then .unknown
  else if coffSectionNameMatchesPrefix name [ '.', 't', 'e', 'x', 't'] then .text
  else if coffSectionNameMatchesPrefix name [ '.', 'r', 'd', 'a', 't', 'a'] then .rdata
  else if coffSectionNameMatchesPrefix name [ '.', 'd', 'a', 't', 'a'] then .data
  else if coffSectionNameMatchesPrefix name [ '.', 'b', 's', 's'] then .bss
  else if coffSectionNameMatchesPrefix name [ '.', 'p', 'd', 'a', 't', 'a'] then .pdata
  else if coffSectionNameMatchesPrefix name [ '.', 'x', 'd', 'a', 't', 'a'] then .xdata
  else .unknown

/-! ## The string table -/

/-- The sum of the symbol table's place and size, in `size_t`. -/
def CoffFileHeader.stringTableOffset (h : CoffFileHeader) : ℕ :=
  h.pointerToSymbolTable.toNat + h.symbolCount.toNat * coffSymbolSize

def sizeMax : ℕ := 2 ^ 64 - 1

/-- `coff_reader_parse_string_table`. The checks see the low half of the offset, the reads the whole of it. -/
def coffReaderParseStringTable (data : Buffer) (h : CoffFileHeader) : CoffRead (Option (Buffer)) := do
  require (h.symbolCount.toNat ≤ sizeMax / coffSymbolSize) .symbolCountOverflows
  let offset := h.stringTableOffset
  require (offset ≤ data.length) .stringTableOffsetOutOfRange
  if offset = data.length then pure none
  else do
    require (coffReaderRangeOk data.length (BitVec.ofNat 32 offset) 4) .stringTableHeaderTruncated
    let size ← linkerReadU32 data offset
    if size = 0 then pure none
    else do
      require (4 ≤ size.toNat) .stringTableSizeInvalid
      require (coffReaderRangeOk data.length (BitVec.ofNat 32 offset) size.toNat) .stringTablePastEnd
      let table ← bytesAt data offset size.toNat
      pure (some table)

/-! ## The sections -/

/-- A relocation record. -/
def coffReaderReadRelocation (data : Buffer) (i : ℕ) : CoffRead CoffRelocation := do
  let virtualAddress ← linkerReadU32 data i
  let symbolTableIndex ← linkerReadU32 data (i + 4)
  let type ← linkerReadU16 data (i + 8)
  pure { virtualAddress, symbolTableIndex, type }

/-- The section says that its relocations are counted in the first of them. -/
def CoffSectionHeader.Extended (h : CoffSectionHeader) : Prop :=
  h.characteristics &&& 0x01000000 ≠ 0 ∧ h.numberOfRelocations = 0xFFFF

instance (h : CoffSectionHeader) : Decidable h.Extended := inferInstanceAs (Decidable (_ ∧ _))

/-- How many relocations there are and at which record they begin. -/
def coffReaderCountRelocations (data : Buffer) (h : CoffSectionHeader) : CoffRead (ℕ × ℕ) :=
  if h.Extended then do
    require (coffReaderRangeOk data.length h.pointerToRelocations coffRelocationSize) (.overflowHeaderOutOfRange h.name)
    let stored ← linkerReadU32 data h.pointerToRelocations.toNat
    require (stored ≠ 0) (.overflowCountInvalid h.name)
    pure ((stored - 1).toNat, 1)
  else pure (h.numberOfRelocations.toNat, 0)

def coffReaderParseRelocations (data : Buffer) (h : CoffSectionHeader) : CoffRead (List CoffRelocation) := do
  let (actual, base) ← coffReaderCountRelocations data h
  if actual = 0 then pure []
  else do
    require (coffReaderRangeOk data.length h.pointerToRelocations ((actual + base) * coffRelocationSize))
      (.relocationTableOutOfRange h.name)
    (List.range actual).mapM fun r =>
      coffReaderReadRelocation data (h.pointerToRelocations.toNat + (r + base) * coffRelocationSize)

def coffReaderParseRawData (data : Buffer) (h : CoffSectionHeader) : CoffRead (Option (Buffer)) :=
  if h.sizeOfRawData ≠ 0 ∧ h.pointerToRawData ≠ 0 then do
    require (coffReaderRangeOk data.length h.pointerToRawData h.sizeOfRawData.toNat) (.rawDataOutOfRange h.name)
    let bytes ← bytesAt data h.pointerToRawData.toNat h.sizeOfRawData.toNat
    pure (some bytes)
  else pure none

/-- A data section without relocations whose bytes are all zero counts as a BSS section. -/
def coffReaderKind (h : CoffSectionHeader) (rawData : Option (Buffer)) (relocations : List CoffRelocation) :
    CoffSectionKind :=
  let kind := coffSectionKindFromName h.name
  if kind = .data ∧ relocations = [] ∧ rawData.any (·.all (· = 0)) then .bss else kind

def coffReaderParseSectionHeader (data : Buffer) (stringTable : Option (Buffer)) (header i : ℕ) :
    CoffRead CoffSectionHeader := do
  let name? ← coffReaderParseSectionName data header stringTable
  let name ← orReject name? (.sectionNameUnresolved (i + 1))
  let virtualSize ← linkerReadU32 data (header + 8)
  let virtualAddress ← linkerReadU32 data (header + 12)
  let sizeOfRawData ← linkerReadU32 data (header + 16)
  let pointerToRawData ← linkerReadU32 data (header + 20)
  let pointerToRelocations ← linkerReadU32 data (header + 24)
  let pointerToLineNumbers ← linkerReadU32 data (header + 28)
  let numberOfRelocations ← linkerReadU16 data (header + 32)
  let numberOfLineNumbers ← linkerReadU16 data (header + 34)
  let characteristics ← linkerReadU32 data (header + 36)
  pure { name, virtualSize, virtualAddress, sizeOfRawData, pointerToRawData, pointerToRelocations,
         pointerToLineNumbers, numberOfRelocations, numberOfLineNumbers, characteristics }

/-- One turn of the loop of `coff_reader_parse_sections`. -/
def coffReaderParseSection (data : Buffer) (stringTable : Option (Buffer)) (i : ℕ) : CoffRead CoffSection := do
  let h ← coffReaderParseSectionHeader data stringTable (coffFileHeaderSize + i * coffSectionHeaderSize) i
  let rawData ← coffReaderParseRawData data h
  let relocations ← coffReaderParseRelocations data h
  pure { toCoffSectionHeader := h, kind := coffReaderKind h rawData relocations, rawData, relocations }

/-- `coff_reader_parse_sections`. -/
def coffReaderParseSections (data : Buffer) (h : CoffFileHeader) (stringTable : Option (Buffer)) :
    CoffRead (List CoffSection) :=
  if h.sectionCount = 0 then pure []
  else do
    require (coffReaderRangeOk data.length (BitVec.ofNat 32 coffFileHeaderSize)
      (h.sectionCount.toNat * coffSectionHeaderSize)) .sectionTableTruncated
    (List.range h.sectionCount.toNat).mapM (coffReaderParseSection data stringTable)

/-! ## The symbols -/

/-- What is kept of an auxiliary record: the symbol it belongs to. -/
def auxiliarySymbol (primary i : ℕ) : CoffSymbol where
  rawIndex := BitVec.ofNat 32 i
  primarySymbolIndex := BitVec.ofNat 32 primary
  isAuxiliary := true

/-- A record that is not auxiliary, with the first auxiliary record behind it. -/
def coffReaderParsePrimary (data : Buffer) (h : CoffFileHeader) (stringTable : Option (Buffer)) (i : ℕ) :
    CoffRead CoffSymbol := do
  let entry := h.pointerToSymbolTable.toNat + i * coffSymbolSize
  let name ← coffReaderParseSymbolName data entry stringTable
  let field ← bytesAt data entry 8
  require (¬ (name = none ∧ field.any (· ≠ 0))) (.symbolNameUnresolved i)
  let value ← linkerReadU32 data (entry + 8)
  let sectionNumber ← linkerReadU16 data (entry + 12)
  let type ← linkerReadU16 data (entry + 14)
  let storageClass ← linkerReadU8 data (entry + 16)
  let auxiliaryCount ← linkerReadU8 data (entry + 17)
  require (auxiliaryCount.toNat ≤ h.symbolCount.toNat - i - 1) (.auxiliaryTruncated name)
  let symbol : CoffSymbol :=
    { rawIndex := BitVec.ofNat 32 i, primarySymbolIndex := BitVec.ofNat 32 i, name, value, sectionNumber, type,
      storageClass, auxiliaryCount }
  if 0 < auxiliaryCount.toNat then do
    let auxEntry := entry + coffSymbolSize
    let auxSectionLength ← linkerReadU32 data auxEntry
    let auxSectionRelocationCount ← linkerReadU16 data (auxEntry + 4)
    let auxSectionLineNumberCount ← linkerReadU16 data (auxEntry + 6)
    pure { symbol with
      hasAuxiliaryRecord := true, auxSectionLength, auxSectionRelocationCount, auxSectionLineNumberCount }
  else pure symbol

/-- The loop of `coff_reader_parse_symbols` over the records that are left, with the auxiliary records still to
come and the symbol they belong to. -/
def coffReaderSymbolLoop (data : Buffer) (h : CoffFileHeader) (stringTable : Option (Buffer)) :
    ℕ → ℕ → ℕ → CoffRead (List CoffSymbol)
  | 0, _, _ => pure []
  | n + 1, auxRemaining, primary =>
    let i := h.symbolCount.toNat - (n + 1)
    if 0 < auxRemaining then do
      let rest ← coffReaderSymbolLoop data h stringTable n (auxRemaining - 1) primary
      pure (auxiliarySymbol primary i :: rest)
    else do
      let symbol ← coffReaderParsePrimary data h stringTable i
      let rest ← (
        if 0 < symbol.auxiliaryCount.toNat then
          coffReaderSymbolLoop data h stringTable n symbol.auxiliaryCount.toNat i
        else coffReaderSymbolLoop data h stringTable n auxRemaining primary)
      pure (symbol :: rest)

/-- `coff_reader_parse_symbols`. -/
def coffReaderParseSymbols (data : Buffer) (h : CoffFileHeader) (stringTable : Option (Buffer)) :
    CoffRead (List CoffSymbol) :=
  if h.symbolCount = 0 then pure []
  else do
    require (h.symbolCount.toNat ≤ sizeMax / coffSymbolSize) .symbolCountOverflows
    require (coffReaderRangeOk data.length h.pointerToSymbolTable (h.symbolCount.toNat * coffSymbolSize))
      .symbolTableOutOfRange
    coffReaderSymbolLoop data h stringTable h.symbolCount.toNat 0 0

/-! ## The object -/

def coffReaderParseFileHeader (data : Buffer) : CoffRead CoffFileHeader := do
  let machine ← linkerReadU16 data 0
  let sectionCount ← linkerReadU16 data 2
  let timeDateStamp ← linkerReadU32 data 4
  let pointerToSymbolTable ← linkerReadU32 data 8
  let symbolCount ← linkerReadU32 data 12
  let sizeOfOptionalHeader ← linkerReadU16 data 16
  let characteristics ← linkerReadU16 data 18
  pure { machine, sectionCount, timeDateStamp, pointerToSymbolTable, symbolCount, sizeOfOptionalHeader,
         characteristics }

/-- `coff_object_read`, from the bytes of the file. -/
def coffObjectRead (data : Buffer) : CoffRead CoffObject := do
  require (coffFileHeaderSize ≤ data.length) .smallerThanFileHeader
  let h ← coffReaderParseFileHeader data
  require (h.machine = coffMachineAmd64) (.unsupportedMachine h.machine)
  let stringTable ← coffReaderParseStringTable data h
  let sections ← coffReaderParseSections data h stringTable
  let symbols ← coffReaderParseSymbols data h stringTable
  pure { toCoffFileHeader := h, sections, symbols, stringTable }

end Mettle.Linker

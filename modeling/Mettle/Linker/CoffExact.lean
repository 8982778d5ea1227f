import Mettle.Linker.CoffSound

/-!
# Where the COFF reader does what the layout says

The reads of sections and symbols lie within what their checks have admitted. Only the checks in front of the string
table see another offset than the reads behind them. Apart from that the reader gives what the file says, with two
exceptions: it takes the section table to follow the file header at once, and it looks for a symbol table at offset
zero where the header says that there is none.
-/

namespace Mettle.Linker

open Mettle.Bytes List

variable {data : Buffer} {stringTable : Option Buffer}

/-! ## Staying in the buffer -/

/-- What the checks of the string table admit at the low half of its offset lies in the file at the offset. -/
structure StringTableInBounds (data : Buffer) (h : CoffFileHeader) : Prop where
  size : h.stringTableOffset < data.length → h.stringTableOffset % 2 ^ 32 + 4 ≤ data.length →
    h.stringTableOffset + 4 ≤ data.length
  table : ∀ size : BitVec 32, WordAt data h.stringTableOffset 4 size →
    h.stringTableOffset % 2 ^ 32 + size.toNat ≤ data.length → h.stringTableOffset + size.toNat ≤ data.length

/-- The range check looks at the low 32 bits of the offset. -/
theorem rangeOk_ofNat_iff {offset length : ℕ} :
    coffReaderRangeOk data.length (BitVec.ofNat 32 offset) length = true ↔ offset % 2 ^ 32 + length ≤ data.length := by
  rw [coffReaderRangeOk_iff, BitVec.toNat_ofNat]

/-- A check that holds passes. -/
theorem require_of {p : Prop} [Decidable p] {e : CoffError} (hp : p) : (require p e : CoffRead Unit) = .ok () :=
  require_eq_ok.mpr hp

/-- Reading the string table stays inside exactly when its size word does. -/
theorem stays_stringTable_iff {h : CoffFileHeader} :
    Stays (coffReaderParseStringTable data h) ↔ StringTableInBounds data h := by
  rw [coffReaderParseStringTable, stays_bind_iff_of_ok (require_of h.symbolCount_le)]
  constructor
  -- a read that fails is one outside the file
  · intro hstays
    constructor
    · intro hlt hhead
      rw [stays_bind_iff_of_ok (require_of hlt.le), if_neg hlt.ne,
        stays_bind_iff_of_ok (require_of (rangeOk_ofNat_iff.mpr hhead))] at hstays
      by_contra hlong
      apply not_stays_bind_left _ hstays
      apply not_stays_bind_left
      rw [stays_bytesAt_iff]
      exact hlong
    · intro size hat hend
      have hsize := hat.within (by norm_num)
      by_cases hsmall : size.toNat < 4
      · omega
      have hne : size ≠ 0 := by
        rintro rfl
        exact hsmall (by decide)
      have hhead : h.stringTableOffset % 2 ^ 32 + 4 ≤ data.length := by
        omega
      rw [stays_bind_iff_of_ok (require_of (by omega)), if_neg (by omega),
        stays_bind_iff_of_ok (require_of (rangeOk_ofNat_iff.mpr hhead)),
        stays_bind_iff_of_ok (linkerReadU32_eq_ok.mpr hat), if_neg hne,
        stays_bind_iff_of_ok (require_of (Nat.not_lt.mp hsmall)),
        stays_bind_iff_of_ok (require_of (rangeOk_ofNat_iff.mpr hend))] at hstays
      by_contra hlong
      apply not_stays_bind_left _ hstays
      rw [stays_bytesAt_iff]
      exact hlong
  · intro hin
    apply stays_require_bind
    intro hle
    split
    · exact stays_pure
    · rename_i hne
      have hlt : h.stringTableOffset < data.length := lt_of_le_of_ne hle hne
      apply stays_require_bind
      intro hhead
      have hsize := hin.size hlt (rangeOk_ofNat_iff.mp hhead)
      apply stays_bind (stays_readWord hsize)
      intro size hread
      split
      · exact stays_pure
      · apply stays_require_bind
        intro _
        apply stays_require_bind
        intro hend
        have hat : WordAt data h.stringTableOffset 4 size := linkerReadU32_eq_ok.mp hread
        apply stays_bind (stays_bytesAt (hin.table size hat (rangeOk_ofNat_iff.mp hend)))
        intro _ _
        exact stays_pure

/-! The readers behind the string table stay in the buffer once their tables are checked. -/

/-- A section's name is read inside its header. -/
theorem stays_sectionName {i : ℕ} (h : i + 8 ≤ data.length) : Stays (coffReaderParseSectionName data i stringTable) := by
  apply stays_bind (stays_bytesAt h)
  intro field _
  cases field with
  | nil => exact stays_pure
  | cons b rest =>
    show Stays (if b = 47 then _ else _)
    split
    · cases sectionNameOffset rest 0 <;> exact stays_pure
    · exact stays_pure

/-- So are the other fields. -/
theorem stays_sectionHeader {header i : ℕ} (h : header + coffSectionHeaderSize ≤ data.length) :
    Stays (coffReaderParseSectionHeader data stringTable header i) := by
  rw [coffSectionHeaderSize] at h
  apply stays_bind (stays_sectionName (by omega))
  intro _ _
  apply stays_bind stays_orReject
  intro _ _
  apply stays_readWord_bind (by omega) (by norm_num)
  intro _ _
  apply stays_readWord_bind (by omega) (by norm_num)
  intro _ _
  apply stays_readWord_bind (by omega) (by norm_num)
  intro _ _
  apply stays_readWord_bind (by omega) (by norm_num)
  intro _ _
  apply stays_readWord_bind (by omega) (by norm_num)
  intro _ _
  apply stays_readWord_bind (by omega) (by norm_num)
  intro _ _
  apply stays_readWord_bind (by omega) (by norm_num)
  intro _ _
  apply stays_readWord_bind (by omega) (by norm_num)
  intro _ _
  apply stays_readWord_bind (by omega) (by norm_num)
  intro _ _
  exact stays_pure

/-- The raw data are checked before they are read. -/
theorem stays_rawData {h : CoffSectionHeader} : Stays (coffReaderParseRawData data h) := by
  rw [coffReaderParseRawData]
  split
  · apply stays_require_bind
    intro hwithin
    apply stays_bind (stays_bytesAt (coffReaderRangeOk_iff.mp hwithin))
    intro _ _
    exact stays_pure
  · exact stays_pure

/-- A relocation inside the file is read inside. -/
theorem stays_readRelocation {i : ℕ} (h : i + coffRelocationSize ≤ data.length) :
    Stays (coffReaderReadRelocation data i) := by
  rw [coffRelocationSize] at h
  apply stays_readWord_bind (by omega) (by norm_num)
  intro _ _
  apply stays_readWord_bind (by omega) (by norm_num)
  intro _ _
  apply stays_readWord_bind (by omega) (by norm_num)
  intro _ _
  exact stays_pure

/-- The count of the relocations is checked before it is read. -/
theorem stays_countRelocations {h : CoffSectionHeader} : Stays (coffReaderCountRelocations data h) := by
  rw [coffReaderCountRelocations]
  split
  · apply stays_require_bind
    intro hfirst
    have hwithin := coffReaderRangeOk_iff.mp hfirst
    rw [coffRelocationSize] at hwithin
    apply stays_readWord_bind (by omega) (by norm_num)
    intro _ _
    apply stays_require_bind
    intro _
    exact stays_pure
  · exact stays_pure

/-- The relocations are checked before they are read. -/
theorem stays_relocations {h : CoffSectionHeader} : Stays (coffReaderParseRelocations data h) := by
  apply stays_bind stays_countRelocations
  rintro ⟨actual, base⟩ _
  show Stays (if actual = 0 then _ else _)
  split
  · exact stays_pure
  · apply stays_require_bind
    intro htable
    have hwithin := coffReaderRangeOk_iff.mp htable
    apply stays_mapM
    intro r hr
    have hlt := mem_range.mp hr
    apply stays_readRelocation
    rw [coffRelocationSize] at hwithin ⊢
    omega

/-- All the sections are read inside the file. -/
theorem stays_sections {h : CoffFileHeader} : Stays (coffReaderParseSections data h stringTable) := by
  rw [coffReaderParseSections]
  split
  · exact stays_pure
  · apply stays_require_bind
    intro htable
    have hwithin := coffReaderRangeOk_iff.mp htable
    rw [show (BitVec.ofNat 32 coffFileHeaderSize).toNat = coffFileHeaderSize from rfl] at hwithin
    apply stays_mapM
    intro i hi
    have hlt := mem_range.mp hi
    apply stays_bind
    · apply stays_sectionHeader
      rw [coffSectionHeaderSize] at hwithin ⊢
      omega
    intro _ _
    apply stays_bind stays_rawData
    intro _ _
    apply stays_bind stays_relocations
    intro _ _
    exact stays_pure

section

variable {h : CoffFileHeader}
  (hwithin : h.pointerToSymbolTable.toNat + h.symbolCount.toNat * coffSymbolSize ≤ data.length)

include hwithin

/-- A symbol of the table is read inside. -/
theorem stays_primary {i : ℕ} (hi : i < h.symbolCount.toNat) : Stays (coffReaderParsePrimary data h stringTable i) := by
  -- the record lies inside the table, and the table inside the file
  have hentry : h.pointerToSymbolTable.toNat + i * coffSymbolSize + 18 ≤ data.length := by
    rw [coffSymbolSize] at hwithin ⊢
    omega
  apply stays_bind
  · apply stays_readWord_bind (by omega) (by norm_num)
    intro _ _
    apply stays_readWord_bind (by omega) (by norm_num)
    intro _ _
    split
    · exact stays_pure
    · apply stays_bind (stays_bytesAt (by omega))
      intro _ _
      exact stays_pure
  intro _ _
  apply stays_bind (stays_bytesAt (by omega))
  intro _ _
  apply stays_require_bind
  intro _
  apply stays_readWord_bind (by omega) (by norm_num)
  intro _ _
  apply stays_readWord_bind (by omega) (by norm_num)
  intro _ _
  apply stays_readWord_bind (by omega) (by norm_num)
  intro _ _
  apply stays_readWord_bind (by omega) (by norm_num)
  intro _ _
  apply stays_readWord_bind (by omega) (by norm_num)
  intro auxiliaryCount _
  apply stays_require_bind
  intro hfits
  split
  · -- the next record is one of the table too
    rename_i hpos
    have haux : h.pointerToSymbolTable.toNat + i * coffSymbolSize + coffSymbolSize + 8 ≤ data.length := by
      rw [coffSymbolSize] at hwithin ⊢
      omega
    apply stays_readWord_bind (by omega) (by norm_num)
    intro _ _
    apply stays_readWord_bind (by omega) (by norm_num)
    intro _ _
    apply stays_readWord_bind (by omega) (by norm_num)
    intro _ _
    exact stays_pure
  · exact stays_pure

/-- So are the others, over the auxiliary records. -/
theorem stays_symbolLoop {n m primary : ℕ} (hn : n ≤ h.symbolCount.toNat) :
    Stays (coffReaderSymbolLoop data h stringTable n m primary) := by
  induction n generalizing m primary with
  | zero => exact stays_pure
  | succ n ih =>
    rw [coffReaderSymbolLoop]
    split
    · apply stays_bind (ih (by omega))
      intro _ _
      exact stays_pure
    · apply stays_bind (stays_primary hwithin (by omega))
      intro s _
      apply stays_bind
      · split
        · exact ih (by omega)
        · exact ih (by omega)
      intro _ _
      exact stays_pure

end

theorem stays_symbols {h : CoffFileHeader} : Stays (coffReaderParseSymbols data h stringTable) := by
  rw [coffReaderParseSymbols]
  split
  · exact stays_pure
  · apply stays_require_bind
    intro _
    apply stays_require_bind
    intro htable
    exact stays_symbolLoop (coffReaderRangeOk_iff.mp htable) le_rfl

/-- The header of a file that is long enough is read inside. -/
theorem stays_fileHeader (h : coffFileHeaderSize ≤ data.length) : Stays (coffReaderParseFileHeader data) := by
  rw [coffFileHeaderSize] at h
  apply stays_readWord_bind (by omega) (by norm_num)
  intro _ _
  apply stays_readWord_bind (by omega) (by norm_num)
  intro _ _
  apply stays_readWord_bind (by omega) (by norm_num)
  intro _ _
  apply stays_readWord_bind (by omega) (by norm_num)
  intro _ _
  apply stays_readWord_bind (by omega) (by norm_num)
  intro _ _
  apply stays_readWord_bind (by omega) (by norm_num)
  intro _ _
  apply stays_readWord_bind (by omega) (by norm_num)
  intro _ _
  exact stays_pure

/-- Reading an object stays in the buffer just when reading its string table does. -/
theorem stays_coffObjectRead_iff : Stays (coffObjectRead data) ↔
    ∀ h : CoffFileHeader, FileHeaderAt data h → h.machine = coffMachineAmd64 → StringTableInBounds data h := by
  constructor
  · intro hstays h hheader hmachine
    have hend : coffFileHeaderSize ≤ data.length := hheader.characteristics.within (by norm_num)
    rw [coffObjectRead, stays_bind_iff_of_ok (require_of hend),
      stays_bind_iff_of_ok (coffReaderParseFileHeader_eq_ok.mpr hheader),
      stays_bind_iff_of_ok (require_of hmachine)] at hstays
    rw [← stays_stringTable_iff]
    by_contra hleaves
    exact not_stays_bind_left hleaves hstays
  · intro hin
    apply stays_require_bind
    intro hsize
    apply stays_bind (stays_fileHeader hsize)
    intro h hheader
    apply stays_require_bind
    intro hmachine
    have hstrings := hin h (coffReaderParseFileHeader_eq_ok.mp hheader) hmachine
    apply stays_bind (stays_stringTable_iff.mpr hstrings)
    intro _ _
    apply stays_bind stays_sections
    intro _ _
    apply stays_bind stays_symbols
    intro _ _
    exact stays_pure

/-! ## The places of the tables -/

/-- Two section headers say the same, with the same name. -/
structure SameSectionHeader (data : Buffer) (stringTable : Option Buffer) (i j : ℕ) : Prop where
  fields : readAt data (i + 8) 32 = readAt data (j + 8) 32
  name : ∀ name, SectionName stringTable (readAt data i 8) name ↔ SectionName stringTable (readAt data j 8) name

/-- The bytes of a section header behind the name. -/
def CoffSectionHeader.fieldBytes (h : CoffSectionHeader) : Buffer :=
  leBytes 4 h.virtualSize.toNat ++ (leBytes 4 h.virtualAddress.toNat ++ (leBytes 4 h.sizeOfRawData.toNat ++
    (leBytes 4 h.pointerToRawData.toNat ++ (leBytes 4 h.pointerToRelocations.toNat ++
    (leBytes 4 h.pointerToLineNumbers.toNat ++ (leBytes 2 h.numberOfRelocations.toNat ++
    (leBytes 2 h.numberOfLineNumbers.toNat ++ leBytes 4 h.characteristics.toNat)))))))

/-- The fields of a section are the bytes of its header. -/
theorem SectionFieldsAt.bytes {i : ℕ} {h : CoffSectionHeader} (hat : SectionFieldsAt data i h) :
    readAt data (i + 8) 32 = h.fieldBytes := by
  show readAt data (i + 8) (4 + (4 + (4 + (4 + (4 + (4 + (2 + (2 + 4)))))))) = _
  rw [readAt_add, readAt_add, readAt_add, readAt_add, readAt_add, readAt_add, readAt_add, readAt_add]
  rw [hat.virtualSize, hat.virtualAddress, hat.sizeOfRawData, hat.pointerToRawData, hat.pointerToRelocations,
    hat.pointerToLineNumbers, hat.numberOfRelocations, hat.numberOfLineNumbers, hat.characteristics]
  rfl

/-- A word within a stretch is one of any other place with the same bytes. -/
theorem WordAt.of_same {i j k m n : ℕ} {v : BitVec (8 * m)} (hsame : readAt data i n = readAt data j n)
    (hat : WordAt data (i + k) m v) (hk : k + m ≤ n) : WordAt data (j + k) m v := by
  rw [WordAt, ← readAt_readAt hk, ← hsame, readAt_readAt hk]
  exact hat

/-- Equal bytes give equal fields. -/
theorem SectionFieldsAt.of_same {i j : ℕ} {h : CoffSectionHeader} (hat : SectionFieldsAt data i h)
    (hsame : readAt data (i + 8) 32 = readAt data (j + 8) 32) : SectionFieldsAt data j h where
  virtualSize := WordAt.of_same (k := 0) hsame hat.virtualSize (by norm_num)
  virtualAddress := WordAt.of_same (k := 4) hsame hat.virtualAddress (by norm_num)
  sizeOfRawData := WordAt.of_same (k := 8) hsame hat.sizeOfRawData (by norm_num)
  pointerToRawData := WordAt.of_same (k := 12) hsame hat.pointerToRawData (by norm_num)
  pointerToRelocations := WordAt.of_same (k := 16) hsame hat.pointerToRelocations (by norm_num)
  pointerToLineNumbers := WordAt.of_same (k := 20) hsame hat.pointerToLineNumbers (by norm_num)
  numberOfRelocations := WordAt.of_same (k := 24) hsame hat.numberOfRelocations (by norm_num)
  numberOfLineNumbers := WordAt.of_same (k := 26) hsame hat.numberOfLineNumbers (by norm_num)
  characteristics := WordAt.of_same (k := 28) hsame hat.characteristics (by norm_num)

/-- A field of eight bytes has one name. -/
theorem SectionName.unique {field name name' : Buffer} (hlength : field.length = 8)
    (h : SectionName stringTable field name) (h' : SectionName stringTable field name') : name = name' := by
  have hwithin : 0 + 8 ≤ field.length := hlength.ge
  have hread : readAt field 0 8 = field := by
    rw [readAt, drop_zero, take_of_length_le hlength.le]
  have hparse (n : Buffer) (hn : SectionName stringTable field n) :
      coffReaderParseSectionName field 0 stringTable = .ok (some n) := by
    rw [coffReaderParseSectionName_eq_ok, hread]
    exact ⟨hwithin, hn⟩
  have heq := (hparse name h).symm.trans (hparse name' h')
  exact Option.some.inj (Except.ok.inj heq)

/-- A section is read alike at two places just when the headers say the same. -/
theorem SectionAt.iff_same {i j : ℕ} {s : CoffSection} (hat : SectionAt data stringTable i s) :
    SectionAt data stringTable j s ↔ SameSectionHeader data stringTable i j := by
  obtain ⟨⟨hname, hfields⟩, hcontents⟩ := hat
  have hin := hfields.within
  rw [coffSectionHeaderSize] at hin
  constructor
  · rintro ⟨⟨hname', hfields'⟩, _⟩
    have hin' := hfields'.within
    rw [coffSectionHeaderSize] at hin'
    refine ⟨hfields.bytes.trans hfields'.bytes.symm, ?_⟩
    intro name
    constructor
    · intro h
      rw [SectionName.unique (readAt_length (by omega)) h hname]
      exact hname'
    · intro h
      rw [SectionName.unique (readAt_length (by omega)) h hname']
      exact hname
  · intro hsame
    exact ⟨⟨(hsame.name _).mp hname, hfields.of_same hsame.fields⟩, hcontents⟩

/-- The file header does not begin with a string table that is empty. -/
theorem FileHeaderAt.not_empty {h : CoffFileHeader} (hheader : FileHeaderAt data h)
    (hmachine : h.machine = coffMachineAmd64) : ¬ StringTableAt data (some 0) none := by
  have hin := hheader.machine.within (by norm_num)
  intro hstrings
  generalize hplace : 0 = place at hstrings
  cases hstrings with
  | fileEnds => omega
  | empty hsize =>
    subst hplace
    have hmachine' : WordAt data 0 2 (0 : BitVec 16) := by
      have hsub : readAt data 0 2 = readAt (readAt data 0 4) 0 2 := (readAt_readAt (n := 4) (k := 0) (m := 2) (by norm_num)).symm
      rw [WordAt, hsub, hsize]
      rfl
    have hzero := hheader.machine.unique hmachine'
    rw [hmachine] at hzero
    exact absurd hzero (by decide)

/-- Where the records begin with the first, having none means that the header counts none. -/
theorem SymbolsAt.symbolCount_eq_zero {h : CoffFileHeader} {base : ℕ}
    (hsymbols : SymbolsAt data h stringTable (some base) []) : h.symbolCount.toNat = 0 := by
  cases hsymbols with
  | table _ hfrom =>
    by_contra hne
    obtain ⟨_, _, _, _, _, hlist⟩ := (symbolsFrom_iff (Nat.pos_of_ne_zero hne)).mp hfrom
    cases hlist

/-- The headers behind the optional header are those that follow the file header, and there is a symbol table. -/
structure TablesFound (data : Buffer) (object : CoffObject) : Prop where
  symbolTable : object.pointerToSymbolTable ≠ 0
  sectionTable : ∀ i < object.sectionCount.toNat, SameSectionHeader data object.stringTable
    (coffFileHeaderSize + i * coffSectionHeaderSize)
    (coffFileHeaderSize + object.sizeOfOptionalHeader.toNat + i * coffSectionHeaderSize)

/-- An object decodes the file exactly when its tables are where the reader found them. -/
theorem Decodes.iff_found {object : CoffObject} (hread : Decodes data object.readPlaces object) :
    Decodes data object.places object ↔ TablesFound data object := by
  obtain ⟨hheader, hmachine, hstrings, hcount, hsections, hsymbols⟩ := hread
  constructor
  · rintro ⟨_, _, hstrings', _, hsections', hsymbols'⟩
    constructor
    -- the places differ only where the header has no symbol table
    · intro hzero
      have hplaces : object.places.symbolTable = none := if_pos hzero
      rw [hplaces] at hstrings' hsymbols'
      have hnone : object.stringTable = none := by
        cases hst : object.stringTable with
        | none => rfl
        | some table =>
          rw [hst] at hstrings'
          cases hstrings'
      have hnil : object.symbols = [] := by
        cases hsym : object.symbols with
        | nil => rfl
        | cons s rest =>
          rw [hsym] at hsymbols'
          cases hsymbols'
      rw [hnil] at hsymbols
      rw [hnone] at hstrings
      have hplace : object.readPlaces.symbolTable.map (· + object.symbolCount.toNat * coffSymbolSize) = some 0 := by
        rw [CoffFileHeader.readPlaces, Option.map_some, hsymbols.symbolCount_eq_zero, hzero]
        rfl
      rw [hplace] at hstrings
      exact hheader.not_empty hmachine hstrings
    · intro i hi
      have hs := List.getElem?_eq_getElem (hcount ▸ hi)
      exact (hsections i _ hs).iff_same.mp (hsections' i _ hs)
  · rintro ⟨hpointer, hsame⟩
    have hplaces : object.places.symbolTable = object.readPlaces.symbolTable := if_neg hpointer
    refine ⟨hheader, hmachine, ?_, hcount, ?_, ?_⟩
    · rw [hplaces]
      exact hstrings
    · intro i s hs
      have hi : i < object.sectionCount.toNat := hcount ▸ (List.getElem?_eq_some_iff.mp hs).1
      exact (hsections i s hs).iff_same.mpr (hsame i hi)
    · rw [hplaces]
      exact hsymbols

/-- The reader stays in the buffer and gives only what the file says, just when the string table's reads lie in the
file where its checks say so and the tables are where the reader looks for them. -/
theorem coffObjectRead_decodes_iff (data : Buffer) :
    (Stays (coffObjectRead data) ∧
      ∀ object, coffObjectRead data = .ok object → Decodes data object.places object) ↔
    (∀ h, FileHeaderAt data h → h.machine = coffMachineAmd64 → StringTableInBounds data h) ∧
      ∀ object, Decodes data object.readPlaces object → TablesFound data object := by
  apply and_congr stays_coffObjectRead_iff
  apply forall_congr'
  intro object
  rw [coffObjectRead_eq_ok]
  constructor
  · intro h hread
    exact hread.iff_found.mp (h hread)
  · intro h hread
    exact hread.iff_found.mpr (h hread)

/-! A file of a little over four gigabytes whose string table has room for one byte: the checks look at offset 17. -/

def farHeader : CoffFileHeader where
  machine := coffMachineAmd64
  sectionCount := 0
  timeDateStamp := 0
  pointerToSymbolTable := 0xFFFFFFFF
  symbolCount := 1
  sizeOfOptionalHeader := 0
  characteristics := 0

def farHeaderBytes : Buffer :=
  leBytes 2 0x8664 ++ leBytes 2 0 ++ leBytes 4 0 ++ leBytes 4 0xFFFFFFFF ++ leBytes 4 1 ++ leBytes 2 0 ++ leBytes 2 0

def farStringTable : Buffer := farHeaderBytes ++ List.replicate (2 ^ 32 - 2) 0

theorem farStringTable_length : farStringTable.length = 2 ^ 32 + 18 := by
  rw [farStringTable, length_append, length_replicate]
  rfl

/-- The first bytes of the example are those of the header. -/
theorem farStringTable_word {i n : ℕ} {v : BitVec (8 * n)} (hin : i + n ≤ 20) (hat : WordAt farHeaderBytes i n v) :
    WordAt farStringTable i n v := by
  rw [WordAt, farStringTable, readAt_append hin]
  exact hat

/-- Its header. -/
theorem farStringTable_header : FileHeaderAt farStringTable farHeader where
  machine := farStringTable_word (by norm_num) (by unfold WordAt; decide)
  sectionCount := farStringTable_word (by norm_num) (by unfold WordAt; decide)
  timeDateStamp := farStringTable_word (by norm_num) (by unfold WordAt; decide)
  pointerToSymbolTable := farStringTable_word (by norm_num) (by unfold WordAt; decide)
  symbolCount := farStringTable_word (by norm_num) (by unfold WordAt; decide)
  sizeOfOptionalHeader := farStringTable_word (by norm_num) (by unfold WordAt; decide)
  characteristics := farStringTable_word (by norm_num) (by unfold WordAt; decide)

theorem coffObjectRead_leaves : ¬ (Stays (coffObjectRead farStringTable) ∧
    ∀ object, coffObjectRead farStringTable = .ok object → Decodes farStringTable object.places object) := by
  rintro ⟨hstays, _⟩
  have hin := stays_coffObjectRead_iff.mp hstays
  have hsize := (hin farHeader farStringTable_header rfl).size
  rw [farStringTable_length] at hsize
  exact absurd (hsize (by decide) (by decide)) (by decide)

end Mettle.Linker

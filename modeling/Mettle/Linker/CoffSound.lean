import Mettle.Linker.CoffNames

/-!
# What the COFF reader gives is what the file says

Each reader succeeds with a value just when the layout puts that value at the place where it looks. The reads decide
this alone: whatever they get past is in the buffer, so the checks in front of them reject nothing that the layout
allows.
-/

namespace Mettle.Linker

open Mettle.Bytes List

variable {data : Buffer} {stringTable : Option Buffer} {i : ℕ}

theorem toNat_pos_of_ne {w : ℕ} {v : BitVec w} (h : v ≠ 0) : 0 < v.toNat := by
  apply Nat.pos_of_ne_zero
  intro hzero
  exact h (BitVec.eq_of_toNat_eq hzero)

/-- One less, of a word that is not zero. -/
theorem toNat_pred {v : BitVec 32} (h : v ≠ 0) : (v - 1).toNat + 1 = v.toNat := by
  have hpos := toNat_pos_of_ne h
  have hle : (1 : BitVec 32) ≤ v := hpos
  rw [BitVec.toNat_sub_of_le hle]
  exact Nat.sub_add_cancel hpos

/-! ## The string table -/

/-- The size of the symbol table does not wrap. -/
theorem CoffFileHeader.symbolCount_le (h : CoffFileHeader) : h.symbolCount.toNat ≤ sizeMax / coffSymbolSize := by
  rw [sizeMax, coffSymbolSize]
  omega

/-- The low half of an offset is no more than the offset. -/
theorem rangeOk_of_le {offset length : ℕ} (h : offset + length ≤ data.length) :
    coffReaderRangeOk data.length (BitVec.ofNat 32 offset) length = true := by
  rw [coffReaderRangeOk_iff, BitVec.toNat_ofNat]
  omega

/-- Reading the string table. -/
theorem coffReaderParseStringTable_eq_ok {h : CoffFileHeader} :
    coffReaderParseStringTable data h = .ok stringTable ↔
      StringTableAt data (some h.stringTableOffset) stringTable := by
  simp only [coffReaderParseStringTable, bind_eq_ok, require_eq_ok]
  constructor
  · rintro ⟨_, _, _, hin, htable⟩
    split at htable
    · rename_i hend
      rw [← pure_eq_ok.mp htable, hend]
      exact .fileEnds
    · simp only [bind_eq_ok, require_eq_ok, linkerReadU32_eq_ok] at htable
      obtain ⟨_, _, size, hsize, htable⟩ := htable
      split at htable
      · rename_i hzero
        rw [← pure_eq_ok.mp htable]
        exact .empty (hzero ▸ hsize)
      · simp only [bind_eq_ok, require_eq_ok, bytesAt_eq_ok, pure_eq_ok] at htable
        obtain ⟨_, hmin, _, _, _, ⟨hwithin, rfl⟩, rfl⟩ := htable
        exact .table hsize hmin hwithin
  · intro hat
    refine ⟨(), h.symbolCount_le, ?_⟩
    generalize h.stringTableOffset = offset at hat ⊢
    -- the three ways in which a file may hold its string table
    cases hat with
    | fileEnds =>
      refine ⟨(), le_refl _, ?_⟩
      rw [if_pos rfl]
      rfl
    | empty hsize =>
      have hin := hsize.within (by norm_num)
      refine ⟨(), by omega, ?_⟩
      rw [if_neg (by omega)]
      simp only [bind_eq_ok, require_eq_ok, linkerReadU32_eq_ok]
      refine ⟨(), rangeOk_of_le hin, 0, hsize, ?_⟩
      rfl
    | @table _ size hsize hmin hwithin =>
      have hin := hsize.within (by norm_num)
      have hne : size ≠ 0 := by
        rintro rfl
        exact absurd hmin (by decide)
      refine ⟨(), by omega, ?_⟩
      rw [if_neg (by omega)]
      simp only [bind_eq_ok, require_eq_ok, linkerReadU32_eq_ok]
      refine ⟨(), rangeOk_of_le hin, size, hsize, ?_⟩
      rw [if_neg hne]
      simp only [bind_eq_ok, require_eq_ok, bytesAt_eq_ok, pure_eq_ok]
      exact ⟨(), hmin, (), rangeOk_of_le hwithin, _, ⟨hwithin, rfl⟩, rfl⟩

/-! ## The sections -/

variable {r : CoffRelocation} {relocations : List CoffRelocation} {actual base : ℕ}

/-- Reading a relocation. -/
theorem coffReaderReadRelocation_eq_ok : coffReaderReadRelocation data i = .ok r ↔ RelocationAt data i r := by
  simp only [coffReaderReadRelocation, bind_eq_ok, linkerReadU32_eq_ok, linkerReadU16_eq_ok, pure_eq_ok]
  constructor
  · rintro ⟨_, haddress, _, hindex, _, htype, rfl⟩
    exact ⟨haddress, hindex, htype⟩
  · rintro ⟨haddress, hindex, htype⟩
    exact ⟨_, haddress, _, hindex, _, htype, rfl⟩

/-- A relocation that is read lies inside the file. -/
theorem RelocationAt.within (h : RelocationAt data i r) : i + coffRelocationSize ≤ data.length := by
  have hend := h.type.within (by norm_num)
  rw [coffRelocationSize]
  omega

/-- Relocations that are there end within the file. -/
theorem RelocationsFrom.within (h : RelocationsFrom data i relocations) (hne : relocations ≠ []) :
    i + relocations.length * coffRelocationSize ≤ data.length := by
  have hpos : 0 < relocations.length := length_pos_iff.mpr hne
  have hlast := h (relocations.length - 1) _ (List.getElem?_eq_getElem (by omega))
  have hend := hlast.within
  rw [coffRelocationSize] at hend ⊢
  omega

/-- Reading the relocations one by one. -/
theorem readRelocations_eq_ok :
    ((range actual).mapM fun r => coffReaderReadRelocation data (i + (r + base) * coffRelocationSize)) =
      .ok relocations ↔
    relocations.length = actual ∧ RelocationsFrom data (i + base * coffRelocationSize) relocations := by
  rw [mapM_range_eq_ok]
  apply and_congr_right
  intro _
  apply forall_congr'
  intro k
  apply forall_congr'
  intro r
  rw [coffReaderReadRelocation_eq_ok, show i + (k + base) * coffRelocationSize =
    i + base * coffRelocationSize + k * coffRelocationSize by ring]

/-- The relocations behind the check of the table. -/
theorem countedRelocations_eq_ok {h : CoffSectionHeader} :
    (if actual = 0 then pure []
      else do
        require (coffReaderRangeOk data.length h.pointerToRelocations ((actual + base) * coffRelocationSize))
          (CoffError.relocationTableOutOfRange h.name)
        (range actual).mapM fun r =>
          coffReaderReadRelocation data (h.pointerToRelocations.toNat + (r + base) * coffRelocationSize)) =
      Except.ok relocations ↔
    relocations.length = actual ∧
      RelocationsFrom data (h.pointerToRelocations.toNat + base * coffRelocationSize) relocations := by
  by_cases hzero : actual = 0
  · rw [if_pos hzero, pure_eq_ok, hzero, length_eq_zero_iff, eq_comm]
    constructor
    · rintro rfl
      apply And.intro rfl
      intro k r hr
      cases hr
    · exact And.left
  · rw [if_neg hzero, bind_eq_ok]
    simp only [require_eq_ok, readRelocations_eq_ok]
    constructor
    · rintro ⟨_, _, hread⟩
      exact hread
    · rintro ⟨hlength, hfrom⟩
      refine ⟨(), ?_, hlength, hfrom⟩
      have hne : relocations ≠ [] := by
        rintro rfl
        exact hzero hlength.symm
      have hwithin := hfrom.within hne
      rw [coffReaderRangeOk_iff, ← hlength, Nat.add_mul]
      omega

/-- Reading the relocations of a section, with a count that may be in the first one. -/
theorem coffReaderParseRelocations_eq_ok {h : CoffSectionHeader} :
    coffReaderParseRelocations data h = .ok relocations ↔ RelocationsAt data h relocations := by
  simp only [coffReaderParseRelocations, bind_eq_ok]
  constructor
  · rintro ⟨⟨actual, base⟩, hcount, hread⟩
    obtain ⟨hlength, hfrom⟩ := countedRelocations_eq_ok.mp hread
    rw [coffReaderCountRelocations] at hcount
    split at hcount
    · rename_i hform
      simp only [bind_eq_ok, require_eq_ok, linkerReadU32_eq_ok, pure_eq_ok, Prod.mk.injEq] at hcount
      obtain ⟨_, hfirst, stored, hstored, _, hne, hactual, rfl⟩ := hcount
      apply RelocationsAt.extended hform (coffReaderRangeOk_iff.mp hfirst) hstored _ hfrom
      rw [hlength, ← hactual, toNat_pred hne]
    · rename_i hform
      simp only [pure_eq_ok, Prod.mk.injEq] at hcount
      obtain ⟨hactual, rfl⟩ := hcount
      exact .plain hform (hlength.trans hactual.symm) hfrom
  · intro hat
    simp only [coffReaderCountRelocations]
    -- the count stands in the header, or in the first record if it does not fit there
    cases hat with
    | plain hform hcount hrecords =>
      refine ⟨(h.numberOfRelocations.toNat, 0), ?_, ?_⟩
      · rw [if_neg hform]
        rfl
      · rw [countedRelocations_eq_ok, Nat.zero_mul]
        exact ⟨hcount, hrecords⟩
    | @extended stored hform hfirst hstored hcount hrecords =>
      have hne : stored ≠ 0 := by
        rintro rfl
        exact absurd hcount (Nat.succ_ne_zero _)
      refine ⟨((stored - 1).toNat, 1), ?_, ?_⟩
      · rw [if_pos hform]
        simp only [bind_eq_ok, require_eq_ok, linkerReadU32_eq_ok, pure_eq_ok]
        exact ⟨(), coffReaderRangeOk_iff.mpr hfirst, stored, hstored, (), hne, rfl⟩
      · rw [countedRelocations_eq_ok, Nat.one_mul]
        have hpred := toNat_pred hne
        exact ⟨by omega, hrecords⟩

/-- Reading the raw data of a section. -/
theorem coffReaderParseRawData_eq_ok {h : CoffSectionHeader} {rawData : Option Buffer} :
    coffReaderParseRawData data h = .ok rawData ↔ RawDataAt data h rawData := by
  rw [coffReaderParseRawData]
  by_cases hform : h.sizeOfRawData ≠ 0 ∧ h.pointerToRawData ≠ 0
  · rw [if_pos hform]
    simp only [bind_eq_ok, require_eq_ok, bytesAt_eq_ok, pure_eq_ok]
    constructor
    · rintro ⟨_, _, _, ⟨hwithin, rfl⟩, rfl⟩
      exact .bytes hform.1 hform.2 hwithin
    · rintro (⟨hnone | hnone⟩ | ⟨_, _, hwithin⟩)
      · exact absurd hnone hform.1
      · exact absurd hnone hform.2
      · exact ⟨(), coffReaderRangeOk_iff.mpr hwithin, _, ⟨hwithin, rfl⟩, rfl⟩
  · rw [if_neg hform, pure_eq_ok]
    constructor
    · rintro rfl
      apply RawDataAt.none
      by_contra hboth
      exact hform (not_or.mp hboth)
    · rintro (_ | ⟨hsize, hpointer, _⟩)
      · rfl
      · exact absurd ⟨hsize, hpointer⟩ hform

/-- Reading the header of a section. -/
theorem coffReaderParseSectionHeader_eq_ok {header : ℕ} {h : CoffSectionHeader} :
    coffReaderParseSectionHeader data stringTable header i = .ok h ↔ SectionHeaderAt data stringTable header h := by
  simp only [coffReaderParseSectionHeader, bind_eq_ok, orReject_eq_ok, linkerReadU32_eq_ok, linkerReadU16_eq_ok,
    pure_eq_ok]
  constructor
  · rintro ⟨_, hname, _, rfl, _, h₁, _, h₂, _, h₃, _, h₄, _, h₅, _, h₆, _, h₇, _, h₈, _, h₉, rfl⟩
    exact ⟨(coffReaderParseSectionName_eq_ok.mp hname).2, ⟨h₁, h₂, h₃, h₄, h₅, h₆, h₇, h₈, h₉⟩⟩
  · rintro ⟨hname, ⟨h₁, h₂, h₃, h₄, h₅, h₆, h₇, h₈, h₉⟩⟩
    have hend := h₁.within (by norm_num)
    exact ⟨_, coffReaderParseSectionName_eq_ok.mpr ⟨by omega, hname⟩, _, rfl, _, h₁, _, h₂, _, h₃, _, h₄, _, h₅, _, h₆,
      _, h₇, _, h₈, _, h₉, rfl⟩

/-- Reading a section. -/
theorem coffReaderParseSection_eq_ok {s : CoffSection} :
    coffReaderParseSection data stringTable i = .ok s ↔
      SectionAt data stringTable (coffFileHeaderSize + i * coffSectionHeaderSize) s := by
  simp only [coffReaderParseSection, bind_eq_ok, coffReaderParseSectionHeader_eq_ok, coffReaderParseRawData_eq_ok,
    coffReaderParseRelocations_eq_ok, pure_eq_ok]
  constructor
  · rintro ⟨_, hheader, _, hraw, _, hrelocations, rfl⟩
    exact ⟨hheader, hraw, hrelocations, rfl⟩
  · rintro ⟨hheader, hraw, hrelocations, hkind⟩
    refine ⟨_, hheader, _, hraw, _, hrelocations, ?_⟩
    rw [← hkind]

/-- A section header that is read lies inside the file. -/
theorem SectionFieldsAt.within {h : CoffSectionHeader} (hat : SectionFieldsAt data i h) :
    i + coffSectionHeaderSize ≤ data.length := by
  have hend := hat.characteristics.within (by norm_num)
  rw [coffSectionHeaderSize]
  omega

/-- Reading all the sections. -/
theorem coffReaderParseSections_eq_ok {h : CoffFileHeader} {sections : List CoffSection} :
    coffReaderParseSections data h stringTable = .ok sections ↔ sections.length = h.sectionCount.toNat ∧
      ∀ (i : ℕ) (s : CoffSection), sections[i]? = some s →
        SectionAt data stringTable (coffFileHeaderSize + i * coffSectionHeaderSize) s := by
  rw [coffReaderParseSections]
  by_cases hzero : h.sectionCount = 0
  · rw [if_pos hzero, pure_eq_ok, hzero]
    constructor
    · rintro rfl
      apply And.intro rfl
      intro k s hs
      cases hs
    · rintro ⟨hlength, _⟩
      exact (length_eq_zero_iff.mp hlength).symm
  · rw [if_neg hzero]
    simp only [bind_eq_ok, require_eq_ok, mapM_range_eq_ok, coffReaderParseSection_eq_ok]
    constructor
    · rintro ⟨_, _, hread⟩
      exact hread
    · rintro ⟨hlength, hread⟩
      refine ⟨(), ?_, hlength, hread⟩
      have hpos : 0 < sections.length := by
        rw [hlength]
        exact toNat_pos_of_ne hzero
      have hlast := hread (sections.length - 1) _ (List.getElem?_eq_getElem (by omega))
      have hend := hlast.1.fields.within
      rw [coffReaderRangeOk_iff, ← hlength]
      show coffFileHeaderSize + sections.length * coffSectionHeaderSize ≤ data.length
      rw [coffSectionHeaderSize] at hend ⊢
      omega

/-! ## The symbols -/

section

variable {h : CoffFileHeader} {s : CoffSymbol} {symbols : List CoffSymbol}

/-- A symbol that is read lies inside the file. -/
theorem SymbolFieldsAt.within (hat : SymbolFieldsAt data i s) : i + coffSymbolSize ≤ data.length := by
  have hend := hat.auxiliaryCount.within (by norm_num)
  rw [coffSymbolSize]
  omega

/-- A name is only missing where an offset is not zero. -/
theorem coffReaderParseSymbolName_ne_none (hzero : ∀ b ∈ readAt data i 8, b = 0) :
    coffReaderParseSymbolName data i stringTable ≠ .ok none := by
  intro hname
  simp only [coffReaderParseSymbolName, bind_eq_ok, linkerReadU32_eq_ok] at hname
  obtain ⟨first, hfirst, second, hsecond, hname⟩ := hname
  split at hname
  · rename_i hlong
    have hwithin := hsecond.within (by norm_num)
    have hsub : readAt data (i + 4) 4 = readAt (readAt data i 8) 4 4 := (readAt_readAt (by norm_num)).symm
    have hbytes : readAt data (i + 4) 4 = replicate 4 0 := by
      rw [eq_replicate_iff]
      refine ⟨readAt_length hwithin, ?_⟩
      intro b hb
      rw [hsub, readAt] at hb
      exact hzero b (mem_of_mem_drop (mem_of_mem_take hb))
    exact hlong.2 (WordAt.unique hsecond (show WordAt _ _ _ 0 from hbytes))
  · obtain ⟨_, _, hfield⟩ := bind_eq_ok.mp hname
    exact absurd (pure_eq_ok.mp hfield) (Option.some_ne_none _)

/-- Reading a symbol, whose auxiliary records have to be in the table. -/
theorem coffReaderParsePrimary_eq_ok {k : ℕ} :
    coffReaderParsePrimary data h stringTable k = .ok s ↔
      SymbolAt data stringTable (h.pointerToSymbolTable.toNat + k * coffSymbolSize) k s ∧
        s.auxiliaryCount.toNat ≤ h.symbolCount.toNat - k - 1 := by
  rw [coffReaderParsePrimary]
  generalize h.pointerToSymbolTable.toNat + k * coffSymbolSize = entry
  simp only [bind_eq_ok, require_eq_ok, linkerReadU32_eq_ok, linkerReadU16_eq_ok, linkerReadU8_eq_ok]
  constructor
  -- what was read is the symbol of the file; with an auxiliary record there are two shapes
  · rintro ⟨name, hname, field, hfield, _, hresolved, value, hvalue, sectionNumber, hnumber, type, htype, storage,
      hstorage, auxiliary, haux, _, hfits, hsymbol⟩
    obtain ⟨_, rfl⟩ := bytesAt_eq_ok.mp hfield
    have hsome : ∃ text, name = some text := by
      rw [← Option.ne_none_iff_exists']
      rintro rfl
      apply coffReaderParseSymbolName_ne_none _ hname
      simpa using hresolved
    obtain ⟨text, rfl⟩ := hsome
    have hat := coffReaderParseSymbolName_eq_ok.mp hname
    split at hsymbol
    · rename_i hpos
      simp only [bind_eq_ok, linkerReadU32_eq_ok, linkerReadU16_eq_ok, pure_eq_ok] at hsymbol
      obtain ⟨length, hlength, relocations, hrelocations, lines, hlines, rfl⟩ := hsymbol
      refine ⟨?_, hfits⟩
      exact {
        rawIndex := rfl
        primarySymbolIndex := rfl
        isAuxiliary := rfl
        name := ⟨text, rfl, hat⟩
        fields := ⟨hvalue, hnumber, htype, hstorage, haux⟩
        hasAuxiliaryRecord := (decide_eq_true hpos).symm
        auxiliary := fun _ => ⟨hlength, hrelocations, hlines⟩
        noAuxiliary := fun hzero => absurd hzero hpos.ne' }
    · rename_i hzero
      rw [pure_eq_ok] at hsymbol
      subst hsymbol
      refine ⟨?_, hfits⟩
      exact {
        rawIndex := rfl
        primarySymbolIndex := rfl
        isAuxiliary := rfl
        name := ⟨text, rfl, hat⟩
        fields := ⟨hvalue, hnumber, htype, hstorage, haux⟩
        hasAuxiliaryRecord := (decide_eq_false hzero).symm
        auxiliary := fun hpos => absurd hpos hzero
        noAuxiliary := fun _ => ⟨rfl, rfl, rfl⟩ }
  -- conversely the reads all stay inside the file, so none of them fails
  · rintro ⟨hat, hfits⟩
    obtain ⟨text, hname, htext⟩ := hat.name
    have hwithin := hat.fields.within
    rw [coffSymbolSize] at hwithin
    refine ⟨_, coffReaderParseSymbolName_eq_ok.mpr htext, _, bytesAt_eq_ok.mpr ⟨by omega, rfl⟩, (), by simp, _,
      hat.fields.value, _, hat.fields.sectionNumber, _, hat.fields.type, _, hat.fields.storageClass, _,
      hat.fields.auxiliaryCount, (), hfits, ?_⟩
    by_cases hpos : 0 < s.auxiliaryCount.toNat
    · have hauxiliary := hat.auxiliary hpos
      rw [if_pos hpos]
      simp only [bind_eq_ok, linkerReadU32_eq_ok, linkerReadU16_eq_ok, pure_eq_ok]
      refine ⟨_, hauxiliary.sectionLength, _, hauxiliary.relocationCount, _, hauxiliary.lineNumberCount, ?_⟩
      have hhas := hat.hasAuxiliaryRecord.trans (decide_eq_true hpos)
      exact CoffSymbol.ext hat.rawIndex.symm hname.symm rfl rfl rfl rfl rfl hat.isAuxiliary.symm
        hat.primarySymbolIndex.symm hhas.symm rfl rfl rfl
    · obtain ⟨h₁, h₂, h₃⟩ := hat.noAuxiliary (Nat.eq_zero_of_not_pos hpos)
      have hhas := hat.hasAuxiliaryRecord.trans (decide_eq_false hpos)
      rw [if_neg hpos, pure_eq_ok]
      exact CoffSymbol.ext hat.rawIndex.symm hname.symm rfl rfl rfl rfl rfl hat.isAuxiliary.symm
        hat.primarySymbolIndex.symm hhas.symm h₁.symm h₂.symm h₃.symm

/-- Nothing follows the last record. -/
theorem SymbolsFrom.eq_nil {base count : ℕ} (hfrom : SymbolsFrom data stringTable base count count symbols) :
    symbols = [] := by
  cases hfrom with
  | done => rfl
  | symbol _ hfits _ => omega

/-- Before the last record there is a symbol. -/
theorem symbolsFrom_iff {base count k : ℕ} (hk : k < count) :
    SymbolsFrom data stringTable base count k symbols ↔ ∃ s rest,
      SymbolAt data stringTable (base + k * coffSymbolSize) k s ∧ k + 1 + s.auxiliaryCount.toNat ≤ count ∧
      SymbolsFrom data stringTable base count (k + 1 + s.auxiliaryCount.toNat) rest ∧
      symbols = s :: ((range s.auxiliaryCount.toNat).map (fun j => auxiliarySymbol k (k + 1 + j)) ++ rest) := by
  constructor
  · intro hfrom
    cases hfrom with
    | done => exact absurd hk (lt_irrefl _)
    | symbol hsymbol hfits hrest => exact ⟨_, _, hsymbol, hfits, hrest, rfl⟩
  · rintro ⟨s, rest, hsymbol, hfits, hrest, rfl⟩
    exact .symbol hsymbol hfits hrest

/-- The loop over `n` records that are left, of which `m` are auxiliary ones of an earlier symbol. -/
theorem coffReaderSymbolLoop_eq_ok {n m primary : ℕ} (hn : n ≤ h.symbolCount.toNat) (hm : m ≤ n) :
    coffReaderSymbolLoop data h stringTable n m primary = .ok symbols ↔ ∃ rest,
      symbols = (range m).map (fun j => auxiliarySymbol primary (h.symbolCount.toNat - n + j)) ++ rest ∧
        SymbolsFrom data stringTable h.pointerToSymbolTable.toNat h.symbolCount.toNat (h.symbolCount.toNat - n + m)
          rest := by
  induction n generalizing m primary symbols with
  | zero =>
    obtain rfl := Nat.le_zero.mp hm
    rw [coffReaderSymbolLoop, pure_eq_ok]
    constructor
    · rintro rfl
      exact ⟨[], rfl, .done⟩
    · rintro ⟨rest, rfl, hrest⟩
      exact hrest.eq_nil.symm
  | succ n ih =>
    have hnext : h.symbolCount.toNat - (n + 1) + 1 = h.symbolCount.toNat - n := by omega
    cases m with
    | succ m =>
      -- the next record belongs to an earlier symbol
      simp only [coffReaderSymbolLoop, if_pos (Nat.succ_pos m), bind_eq_ok, pure_eq_ok, Nat.add_sub_cancel,
        ih (show n ≤ h.symbolCount.toNat by omega) (Nat.le_of_succ_le_succ hm)]
      have hshift (j : ℕ) : h.symbolCount.toNat - n + j = h.symbolCount.toNat - (n + 1) + (j + 1) := by omega
      simp only [range_succ_eq_map, map_cons, map_map, Function.comp_def, hshift, Nat.succ_eq_add_one,
        Nat.add_zero, cons_append]
      constructor
      · rintro ⟨_, ⟨rest, rfl, hrest⟩, rfl⟩
        exact ⟨rest, rfl, hrest⟩
      · rintro ⟨rest, rfl, hrest⟩
        exact ⟨_, ⟨rest, rfl, hrest⟩, rfl⟩
    | zero =>
      -- the next record is a symbol, and the loop goes on behind its auxiliary records
      have hgo {s : CoffSymbol} {tail : List CoffSymbol} (hfits : s.auxiliaryCount.toNat ≤ n) :
          (if 0 < s.auxiliaryCount.toNat then
              coffReaderSymbolLoop data h stringTable n s.auxiliaryCount.toNat (h.symbolCount.toNat - (n + 1))
            else coffReaderSymbolLoop data h stringTable n 0 primary) = .ok tail ↔
          ∃ rest, tail = (range s.auxiliaryCount.toNat).map
              (fun j => auxiliarySymbol (h.symbolCount.toNat - (n + 1)) (h.symbolCount.toNat - (n + 1) + 1 + j)) ++ rest ∧
            SymbolsFrom data stringTable h.pointerToSymbolTable.toNat h.symbolCount.toNat
              (h.symbolCount.toNat - (n + 1) + 1 + s.auxiliaryCount.toNat) rest := by
        rw [hnext]
        split
        · exact ih (by omega) hfits
        · rename_i hzero
          rw [Nat.eq_zero_of_not_pos hzero]
          exact ih (by omega) (Nat.zero_le n)
      simp only [coffReaderSymbolLoop, lt_irrefl, if_false, bind_eq_ok, pure_eq_ok, coffReaderParsePrimary_eq_ok,
        range_zero, map_nil, nil_append, Nat.add_zero, exists_eq_left']
      rw [symbolsFrom_iff (by omega)]
      constructor
      · rintro ⟨s, ⟨hsymbol, hfits⟩, tail, htail, rfl⟩
        obtain ⟨rest, rfl, hrest⟩ := (hgo (by omega)).mp htail
        exact ⟨s, rest, hsymbol, by omega, hrest, rfl⟩
      · rintro ⟨s, rest, hsymbol, hfits, hrest, rfl⟩
        exact ⟨s, ⟨hsymbol, by omega⟩, _, (hgo (by omega)).mpr ⟨rest, rfl, hrest⟩, rfl⟩

/-- Reading the symbol table. -/
theorem coffReaderParseSymbols_eq_ok :
    coffReaderParseSymbols data h stringTable = .ok symbols ↔
      SymbolsAt data h stringTable (some h.pointerToSymbolTable.toNat) symbols := by
  have hloop : coffReaderSymbolLoop data h stringTable h.symbolCount.toNat 0 0 = .ok symbols ↔
      SymbolsFrom data stringTable h.pointerToSymbolTable.toNat h.symbolCount.toNat 0 symbols := by
    rw [coffReaderSymbolLoop_eq_ok le_rfl (Nat.zero_le _), Nat.sub_self]
    simp
  rw [coffReaderParseSymbols]
  by_cases hzero : h.symbolCount = 0
  · rw [if_pos hzero, pure_eq_ok]
    constructor
    · rintro rfl
      apply SymbolsAt.table (fun hne => absurd hzero hne)
      rw [hzero]
      exact .done
    · intro hat
      cases hat with
      | table _ hsymbols =>
        rw [hzero] at hsymbols
        exact hsymbols.eq_nil.symm
  · rw [if_neg hzero]
    simp only [bind_eq_ok, require_eq_ok, coffReaderRangeOk_iff, hloop]
    constructor
    · rintro ⟨_, _, _, hwithin, hsymbols⟩
      exact .table (fun _ => hwithin) hsymbols
    · intro hat
      cases hat with
      | table hwithin hsymbols => exact ⟨(), h.symbolCount_le, (), hwithin hzero, hsymbols⟩

end

/-! ## The object -/

/-- Reading the header of the file. -/
theorem coffReaderParseFileHeader_eq_ok {h : CoffFileHeader} :
    coffReaderParseFileHeader data = .ok h ↔ FileHeaderAt data h := by
  simp only [coffReaderParseFileHeader, bind_eq_ok, linkerReadU32_eq_ok, linkerReadU16_eq_ok, pure_eq_ok]
  constructor
  · rintro ⟨_, h₁, _, h₂, _, h₃, _, h₄, _, h₅, _, h₆, _, h₇, rfl⟩
    exact ⟨h₁, h₂, h₃, h₄, h₅, h₆, h₇⟩
  · rintro ⟨h₁, h₂, h₃, h₄, h₅, h₆, h₇⟩
    exact ⟨_, h₁, _, h₂, _, h₃, _, h₄, _, h₅, _, h₆, _, h₇, rfl⟩

/-- The reader gives an object just when the file says it, with the tables where the reader looks for them. -/
theorem coffObjectRead_eq_ok {object : CoffObject} :
    coffObjectRead data = .ok object ↔ Decodes data object.readPlaces object := by
  simp only [coffObjectRead, bind_eq_ok, require_eq_ok, coffReaderParseFileHeader_eq_ok,
    coffReaderParseStringTable_eq_ok, coffReaderParseSections_eq_ok, coffReaderParseSymbols_eq_ok, pure_eq_ok]
  constructor
  · rintro ⟨_, _, h, hheader, _, hmachine, stringTable, hstrings, sections, hsections, symbols, hsymbols, rfl⟩
    exact ⟨hheader, hmachine, hstrings, hsections.1, hsections.2, hsymbols⟩
  · rintro ⟨hheader, hmachine, hstrings, hcount, hsections, hsymbols⟩
    have hend := hheader.characteristics.within (by norm_num)
    exact ⟨(), hend, _, hheader, (), hmachine, _, hstrings, _, ⟨hcount, hsections⟩, _, hsymbols, rfl⟩

end Mettle.Linker

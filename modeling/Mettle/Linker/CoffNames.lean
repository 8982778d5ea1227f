import Mettle.Linker.CoffLayout

/-!
# The names that the COFF reader gives

A name in the string table ends at the first zero, a name in a field of eight bytes too, and the number behind a
slash is the one its digits spell: at most seven digits cannot leave 32 bits.
-/

namespace Mettle.Linker

open Mettle.Bytes List Option

variable {n i : ℕ} {offset : BitVec 32} {bytes name rest data : Buffer} {stringTable : Option Buffer} {b : BitVec 8}

/-- A range passes the check exactly when it ends inside. -/
theorem coffReaderRangeOk_iff {length : ℕ} :
    coffReaderRangeOk n offset length = true ↔ offset.toNat + length ≤ n := by
  rw [coffReaderRangeOk]
  split
  · simp
    omega
  · split
    · simp
      omega
    · simp
      omega

/-! ## Zero-terminated strings -/

theorem zero_notMem_cString (bytes : Buffer) : 0 ∉ cString bytes := by
  intro h
  have hne := mem_takeWhile_imp h
  simp at hne

theorem cString_eq_self (h : 0 ∉ bytes) : cString bytes = bytes := by
  rw [cString, takeWhile_eq_self_iff]
  intro b hb
  rw [decide_eq_true_eq]
  rintro rfl
  exact h hb

theorem cString_append_zero (h : 0 ∉ name) : cString (name ++ 0 :: rest) = name := by
  have hself := cString_eq_self h
  rw [cString] at hself ⊢
  rw [takeWhile_append, if_pos (by rw [hself]), takeWhile_cons]
  simp

/-- Bytes are the string they hold, and the zero that ends it with what is behind it, if there is one. -/
theorem cString_cases (bytes : Buffer) : bytes = cString bytes ∨ ∃ rest, bytes = cString bytes ++ 0 :: rest := by
  have hsplit : cString bytes ++ bytes.dropWhile (· ≠ 0) = bytes := takeWhile_append_dropWhile
  cases hrest : bytes.dropWhile (· ≠ 0) with
  | nil =>
    rw [hrest, append_nil] at hsplit
    exact .inl hsplit.symm
  | cons b rest =>
    have hb : b = 0 := by
      have hhead := head?_dropWhile_not (· ≠ (0 : BitVec 8)) bytes
      rw [hrest] at hhead
      simpa using hhead
    rw [hrest, hb] at hsplit
    exact .inr ⟨rest, hsplit.symm⟩

/-- A trimmed name is the string in the field. -/
theorem coffReaderDupBytesTrimmed_eq (bytes : Buffer) : coffReaderDupBytesTrimmed bytes = cString bytes := by
  rw [coffReaderDupBytesTrimmed]
  induction bytes using reverseRecOn with
  | nil => rfl
  | append_singleton bytes b ih =>
    rw [rdropWhile_concat]
    split
    · rename_i hb
      rw [ih, cString, cString, takeWhile_append]
      rw [decide_eq_true_eq] at hb
      split
      · rename_i hlength
        rw [hb, takeWhile_cons]
        simp only [ne_eq, not_true_eq_false, decide_false, Bool.false_eq_true, if_false, append_nil]
        exact takeWhile_prefix _ |>.eq_of_length hlength
      · rfl
    · rfl

/-- A string that ends inside the range. -/
theorem coffReaderDupCstringRange_eq_some :
    coffReaderDupCstringRange bytes = some name ↔ ∃ rest, bytes = name ++ 0 :: rest ∧ 0 ∉ name := by
  rw [coffReaderDupCstringRange, ite_none_left_eq_some, some_inj]
  constructor
  · rintro ⟨hlength, rfl⟩
    rcases cString_cases bytes with hself | ⟨rest, hrest⟩
    · exact absurd (by rw [← hself]) hlength
    · have htake : bytes.take (cString bytes).length = cString bytes := by
        conv_lhs => rw [hrest]
        rw [cString_append_zero (zero_notMem_cString bytes)]
        exact take_left' rfl
      rw [htake]
      exact ⟨rest, hrest, zero_notMem_cString bytes⟩
  · rintro ⟨rest, rfl, hname⟩
    rw [cString_append_zero hname]
    refine ⟨?_, take_left' rfl⟩
    rw [length_append, length_cons]
    omega

/-- A name of the string table. -/
theorem coffReaderStringFromTable_eq_some :
    coffReaderStringFromTable stringTable offset = some name ↔ NameAt stringTable offset.toNat name := by
  cases stringTable with
  | none => simp [coffReaderStringFromTable, NameAt]
  | some table =>
    rw [coffReaderStringFromTable, ite_none_left_eq_some, ite_none_left_eq_some,
      coffReaderDupCstringRange_eq_some]
    constructor
    · rintro ⟨_, hoffset, rest, hdrop, hname⟩
      exact ⟨table, rest, rfl, by omega, hdrop, hname⟩
    · rintro ⟨table', rest, htable, hmin, hdrop, hname⟩
      cases htable
      have hlength := congrArg length hdrop
      rw [length_drop, length_append, length_cons] at hlength
      exact ⟨by omega, by omega, rest, hdrop, hname⟩

/-! ## The number behind the slash -/

theorem decimal_nil : decimal [] = 0 := rfl

/-- The first digit counts for the highest power. -/
theorem decimal_cons (d : BitVec 8) (digits : Buffer) :
    decimal (d :: digits) = (d.toNat - 48) * 10 ^ digits.length + decimal digits := by
  rw [decimal, decimal, reverse_cons, map_append, Nat.ofDigits_append, length_map, length_reverse,
    map_singleton, Nat.ofDigits_singleton]
  ring

theorem isDigit_iff : isDigit b = true ↔ 48 ≤ b.toNat ∧ b.toNat ≤ 57 := by
  rw [isDigit, decide_eq_true_eq, BitVec.le_def, BitVec.le_def]
  rfl

/-- The value of `n` digits is below `10 ^ n`. -/
theorem decimal_lt {digits : Buffer} (h : ∀ d ∈ digits, isDigit d = true) : decimal digits < 10 ^ digits.length := by
  induction digits with
  | nil => exact Nat.one_pos
  | cons d digits ih =>
    have hd := isDigit_iff.mp (h d mem_cons_self)
    have hrest := ih fun d' hd' => h d' (mem_cons_of_mem _ hd')
    have hdigit : d.toNat - 48 ≤ 9 := by omega
    have hmul := Nat.mul_le_mul_right (10 ^ digits.length) hdigit
    rw [decimal_cons, length_cons, pow_succ]
    omega

theorem toNat_digit (h : isDigit b = true) : ((b - 48).setWidth 32).toNat = b.toNat - 48 := by
  have hb := isDigit_iff.mp h
  have hsub : (b - 48).toNat = b.toNat - 48 := by
    have hle : (48 : BitVec 8) ≤ b := hb.1
    rw [BitVec.toNat_sub_of_le hle]
    rfl
  rw [BitVec.toNat_setWidth, hsub]
  omega

/-- The loop reads the digits up to a zero or the end. -/
theorem sectionNameOffset_eq_some {acc : BitVec 32} :
    sectionNameOffset bytes acc = some offset ↔ ∃ digits pad, bytes = digits ++ pad ∧
      (∀ d ∈ digits, isDigit d = true) ∧ (∀ b ∈ pad.head?, b = 0) ∧
      offset = acc * BitVec.ofNat 32 (10 ^ digits.length) + BitVec.ofNat 32 (decimal digits) := by
  induction bytes generalizing acc with
  | nil =>
    rw [sectionNameOffset, some_inj]
    constructor
    · rintro rfl
      exact ⟨[], [], rfl, by simp, by simp, by simp [decimal_nil]⟩
    · rintro ⟨digits, pad, hsplit, _, _, rfl⟩
      obtain ⟨rfl, rfl⟩ := append_eq_nil_iff.mp hsplit.symm
      simp [decimal_nil]
  | cons b bytes ih =>
    rw [sectionNameOffset]
    by_cases hzero : b = 0
    · rw [if_pos hzero, some_inj]
      constructor
      · rintro rfl
        exact ⟨[], b :: bytes, rfl, by simp, by simp [hzero], by simp [decimal_nil]⟩
      · rintro ⟨digits, pad, hsplit, hdigits, _, rfl⟩
        cases digits with
        | nil => simp [decimal_nil]
        | cons d digits =>
          have hd := hdigits d mem_cons_self
          rw [← (cons.inj hsplit).1, hzero] at hd
          exact absurd hd (by decide)
    · rw [if_neg hzero]
      by_cases hdigit : isDigit b = true
      · rw [if_pos hdigit, ih]
        -- shifting the number by one digit
        have hstep (digits : Buffer) : (acc * 10 + (b - 48).setWidth 32) * BitVec.ofNat 32 (10 ^ digits.length) +
            BitVec.ofNat 32 (decimal digits) = acc * BitVec.ofNat 32 (10 ^ (b :: digits).length) +
            BitVec.ofNat 32 (decimal (b :: digits)) := by
          have hb : (b - 48).setWidth 32 = BitVec.ofNat 32 (b.toNat - 48) := by
            rw [← toNat_digit hdigit, BitVec.ofNat_toNat, BitVec.setWidth_eq]
          rw [hb, decimal_cons, length_cons, pow_succ, BitVec.ofNat_mul, BitVec.ofNat_add, BitVec.ofNat_mul,
            show (10 : BitVec 32) = BitVec.ofNat 32 10 from rfl]
          ring
        constructor
        · rintro ⟨digits, pad, rfl, hdigits, hpad, rfl⟩
          refine ⟨b :: digits, pad, rfl, ?_, hpad, hstep digits⟩
          intro d hd
          rcases mem_cons.mp hd with rfl | hd
          · exact hdigit
          · exact hdigits d hd
        · rintro ⟨digits, pad, hsplit, hdigits, hpad, rfl⟩
          cases digits with
          | nil =>
            rw [nil_append] at hsplit
            exact absurd (hpad b (by rw [← hsplit]; rfl)) hzero
          | cons d digits =>
            obtain ⟨rfl, hrest⟩ := cons.inj hsplit
            exact ⟨digits, pad, hrest, fun d' hd' => hdigits d' (mem_cons_of_mem _ hd'), hpad, (hstep digits).symm⟩
      · rw [if_neg hdigit]
        constructor
        · rintro ⟨⟩
        · rintro ⟨digits, pad, hsplit, hdigits, hpad, _⟩
          cases digits with
          | nil =>
            rw [nil_append] at hsplit
            exact absurd (hpad b (by rw [← hsplit]; rfl)) hzero
          | cons d digits =>
            rw [(cons.inj hsplit).1] at hdigit
            exact absurd (hdigits d mem_cons_self) hdigit

/-- In a field of eight bytes the number read is the number written. -/
theorem sectionNameOffset_eq_iff (hlength : rest.length = 7) :
    sectionNameOffset rest 0 = some offset ↔ SlashNumber (47 :: rest) offset.toNat := by
  rw [sectionNameOffset_eq_some, SlashNumber]
  apply exists_congr
  intro digits
  apply exists_congr
  intro pad
  rw [cons_inj_right]
  apply and_congr_right
  intro hsplit
  apply and_congr_right
  intro hdigits
  apply and_congr_right
  intro _
  have hlt : decimal digits < 2 ^ 32 := by
    have hle : digits.length ≤ 7 := by
      rw [← hlength, hsplit, length_append]
      omega
    calc decimal digits < 10 ^ digits.length := decimal_lt hdigits
      _ ≤ 10 ^ 7 := Nat.pow_le_pow_right (by norm_num) hle
      _ < 2 ^ 32 := by norm_num
  rw [zero_mul, zero_add, ← BitVec.toNat_inj, BitVec.toNat_ofNat, Nat.mod_eq_of_lt hlt]

/-- An offset behind a slash fits 32 bits. -/
theorem slashNumber_lt {field : Buffer} (hlength : field.length = 8) (h : SlashNumber field n) : n < 2 ^ 32 := by
  obtain ⟨digits, pad, rfl, hdigits, _, rfl⟩ := h
  have hle : digits.length ≤ 7 := by
    rw [length_cons, length_append] at hlength
    omega
  calc decimal digits < 10 ^ digits.length := decimal_lt hdigits
    _ ≤ 10 ^ 7 := Nat.pow_le_pow_right (by norm_num) hle
    _ < 2 ^ 32 := by norm_num

/-! ## The names of sections and symbols -/

/-- A section's name is the one the format gives it. -/
theorem coffReaderParseSectionName_eq_ok :
    coffReaderParseSectionName data i stringTable = .ok (some name) ↔
      i + 8 ≤ data.length ∧ SectionName stringTable (readAt data i 8) name := by
  rw [coffReaderParseSectionName, bind_eq_ok]
  constructor
  · rintro ⟨field, hfield, hname⟩
    obtain ⟨hwithin, rfl⟩ := bytesAt_eq_ok.mp hfield
    apply And.intro hwithin
    have hlength : (readAt data i 8).length = 8 := readAt_length hwithin
    revert hname hlength
    generalize readAt data i 8 = field
    intro hname hlength
    -- by the first character: a slash makes the rest an offset into the string table
    cases field with
    | nil => cases hlength
    | cons b rest =>
      have hrest : rest.length = 7 := Nat.succ.inj hlength
      simp only at hname
      split at hname
      · rename_i hslash
        subst hslash
        cases hoffset : sectionNameOffset rest 0 with
        | none =>
          rw [hoffset, pure_eq_ok, some_inj, coffReaderDupBytesTrimmed_eq] at hname
          subst hname
          apply SectionName.short
          intro n hn
          have hn' : SlashNumber (47 :: rest) (BitVec.ofNat 32 n).toNat := by
            rw [BitVec.toNat_ofNat, Nat.mod_eq_of_lt (slashNumber_lt hlength hn)]
            exact hn
          rw [(sectionNameOffset_eq_iff hrest).mpr hn'] at hoffset
          cases hoffset
        | some offset =>
          rw [hoffset, pure_eq_ok, coffReaderStringFromTable_eq_some] at hname
          exact .long ((sectionNameOffset_eq_iff hrest).mp hoffset) hname
      · rename_i hslash
        rw [pure_eq_ok, some_inj, coffReaderDupBytesTrimmed_eq] at hname
        subst hname
        apply SectionName.short
        rintro n ⟨digits, pad, hsplit, _⟩
        exact hslash (cons.inj hsplit).1
  · rintro ⟨hwithin, hname⟩
    refine ⟨_, bytesAt_eq_ok.mpr ⟨hwithin, rfl⟩, ?_⟩
    have hlength : (readAt data i 8).length = 8 := readAt_length hwithin
    revert hname hlength
    generalize readAt data i 8 = field
    intro hname hlength
    cases field with
    | nil => cases hlength
    | cons b rest =>
      have hrest : rest.length = 7 := Nat.succ.inj hlength
      simp only
      cases hname with
      | short hshort =>
        split
        · rename_i hslash
          subst hslash
          cases hoffset : sectionNameOffset rest 0 with
          | none => rw [pure_eq_ok, coffReaderDupBytesTrimmed_eq]
          | some offset => exact absurd ((sectionNameOffset_eq_iff hrest).mp hoffset) (hshort _)
        · rw [pure_eq_ok, coffReaderDupBytesTrimmed_eq]
      | @long n name hn hat =>
        obtain ⟨digits, pad, hsplit, _⟩ := id hn
        obtain rfl := (cons.inj hsplit).1
        have hlt := slashNumber_lt hlength hn
        have htoNat : (BitVec.ofNat 32 n).toNat = n := by rw [BitVec.toNat_ofNat, Nat.mod_eq_of_lt hlt]
        have hoffset : sectionNameOffset rest 0 = some (BitVec.ofNat 32 n) := by
          rw [sectionNameOffset_eq_iff hrest, htoNat]
          exact hn
        rw [if_pos rfl, hoffset, pure_eq_ok, coffReaderStringFromTable_eq_some, htoNat]
        exact hat

/-- Reading a word of four bytes. -/
theorem linkerReadU32_eq_ok {v : BitVec 32} :
    linkerReadU32 data i = .ok v ↔ WordAt data i 4 v := readWord_eq_ok (by norm_num)

/-- Reading a word of two bytes. -/
theorem linkerReadU16_eq_ok {v : BitVec 16} :
    linkerReadU16 data i = .ok v ↔ WordAt data i 2 v := readWord_eq_ok (by norm_num)

/-- Reading a byte. -/
theorem linkerReadU8_eq_ok {v : BitVec 8} :
    linkerReadU8 data i = .ok v ↔ WordAt data i 1 v := readWord_eq_ok (by norm_num)

/-- A symbol's name is the one the format gives it. -/
theorem coffReaderParseSymbolName_eq_ok :
    coffReaderParseSymbolName data i stringTable = .ok (some name) ↔ SymbolName data stringTable i name := by
  simp only [coffReaderParseSymbolName, bind_eq_ok, linkerReadU32_eq_ok]
  constructor
  · rintro ⟨first, hfirst, second, hsecond, hname⟩
    split at hname
    · rename_i hlong
      rw [pure_eq_ok, coffReaderStringFromTable_eq_some] at hname
      exact .long (hlong.1 ▸ hfirst) hsecond hlong.2 hname
    · rename_i hshort
      obtain ⟨field, hfield, hname⟩ := bind_eq_ok.mp hname
      rw [pure_eq_ok, some_inj, coffReaderDupBytesTrimmed_eq, ← (bytesAt_eq_ok.mp hfield).2] at hname
      subst hname
      exact .short hfirst hsecond hshort
  · rintro (⟨hfirst, hsecond, hshort⟩ | ⟨hfirst, hsecond, hne, hname⟩)
    · refine ⟨_, hfirst, _, hsecond, ?_⟩
      rw [if_neg hshort, bind_eq_ok]
      have hwithin : i + 8 ≤ data.length := by
        have hend := hsecond.within (by norm_num)
        omega
      refine ⟨_, bytesAt_eq_ok.mpr ⟨hwithin, rfl⟩, ?_⟩
      rw [pure_eq_ok, coffReaderDupBytesTrimmed_eq]
    · refine ⟨_, hfirst, _, hsecond, ?_⟩
      rw [if_pos ⟨rfl, hne⟩, pure_eq_ok, coffReaderStringFromTable_eq_some]
      exact hname

end Mettle.Linker

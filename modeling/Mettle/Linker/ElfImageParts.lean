import Mettle.Linker.ElfLayout
import Mettle.Linker.SectionsSound

/-!
# The walk over the parts of an ELF image

Modulo `2 ^ 64` the walk puts every part at the least aligned offset behind the one before, and at that
offset plus the displacement of its segment.
-/

namespace Mettle.Linker

open Mettle.Lib List

/-! ## Rounding up modulo `2 ^ 64` -/

variable {a : BitVec 64} {sections : Fin 7 → LinkedSection} {kind : LinkSectionKind}

/-- To align up is to round up, modulo `2 ^ 64`. -/
theorem linkerAlignUp_ofNat (n : ℕ) (ha : a.toNat.isPowerOfTwo) :
    linkerAlignUp (BitVec.ofNat 64 n) a = BitVec.ofNat 64 (roundUp n a.toNat) := by
  obtain ⟨e, he⟩ := ha
  have hlt : e < 64 := (Nat.pow_lt_pow_iff_right (by decide : 1 < 2)).mp (he ▸ a.isLt)
  have hpos : 0 < a.toNat := he ▸ Nat.two_pow_pos e
  have hne : a ≠ 0 := fun h0 => by rw [h0] at hpos; exact absurd hpos (by decide)
  have hdvd : a.toNat ∣ 2 ^ 64 := he ▸ pow_dvd_pow 2 hlt.le
  apply BitVec.eq_of_toNat_eq
  rw [linkerAlignUp, if_neg hne, and_not_toNat, BitVec.toNat_and, BitVec.toNat_ofNat, roundUp_eq_sub hpos]
  have hone : (a - 1).toNat = 2 ^ e - 1 := by
    simp
    omega
  have hsum : (BitVec.ofNat 64 n + a - 1).toNat = (n + a.toNat - 1) % 2 ^ 64 := by
    simp
    omega
  rw [hone, Nat.and_two_pow_sub_one_eq_mod, hsum, ← he]
  exact mod_sub_mod_eq _ hdvd

/-- A power of two of 64 bits divides `2 ^ 64`. -/
theorem dvd_two_pow_64 (ha : a.toNat.isPowerOfTwo) : a.toNat ∣ 2 ^ 64 := by
  obtain ⟨e, he⟩ := ha
  rw [he]
  exact pow_dvd_pow 2 ((Nat.pow_lt_pow_iff_right (by decide : 1 < 2)).mp (he ▸ a.isLt)).le

theorem alignment_pos (ha : a.toNat.isPowerOfTwo) : 0 < a.toNat := by
  obtain ⟨e, he⟩ := ha
  exact he ▸ Nat.two_pow_pos e

/-! ## The parts -/

/-- What the parts of an image have. -/
structure ElfImagePart.Wf (p : ElfImagePart) : Prop where
  file_le : p.fileSize.toNat ≤ p.memorySize.toNat
  memory_pos : 0 < p.memorySize.toNat
  alignment : p.alignment.toNat.isPowerOfTwo
  tls : p.isTls = true → p.fileSize = 0

/-- The read-only parts. -/
def readOnlyParts (sections : Fin 7 → LinkedSection) : List ElfImagePart :=
  [LinkSectionKind.text, .rdata, .pdata, .xdata].filterMap (elfImagePart sections)

/-- The writable parts. -/
def writableParts (sections : Fin 7 → LinkedSection) : List ElfImagePart :=
  [LinkSectionKind.tls, .data, .bss].filterMap (elfImagePart sections)

/-- The parts that are collected: the read-only ones, then the writable ones. -/
theorem collectParts_fst (sections : Fin 7 → LinkedSection) :
    (elfImageCollectParts sections).1 = readOnlyParts sections ++ writableParts sections :=
  filterMap_append (l := [LinkSectionKind.text, .rdata, .pdata, .xdata])

/-- How many values a partial function gives. -/
theorem length_filterMap_eq {α β : Type*} (f : α → Option β) (l : List α) :
    (l.filterMap f).length = (l.filter fun a => (f a).isSome).length := by
  induction l with
  | nil => rfl
  | cons a l ih =>
    cases h : f a with
    | none => rw [filterMap_cons_none h, filter_cons_of_neg (by simp [h]), ih]
    | some b => rw [filterMap_cons_some h, filter_cons_of_pos (by simp [h]), length_cons,
        length_cons, ih]

/-- How many are read-only. -/
theorem collectParts_snd (sections : Fin 7 → LinkedSection) :
    (elfImageCollectParts sections).2 = (readOnlyParts sections).length := by
  rw [readOnlyParts, length_filterMap_eq]
  have hsplit : elfImageOrder = [LinkSectionKind.text, .rdata, .pdata, .xdata] ++ [.tls, .data, .bss] := rfl
  rw [elfImageCollectParts, hsplit, filter_append, length_append]
  have hfirst : ∀ l : List LinkSectionKind, (∀ kind ∈ l, elfImageFlagsForKind kind &&& pfW = 0) →
      (l.filter fun kind => decide ((elfImagePart sections kind).isSome ∧ elfImageFlagsForKind kind &&& pfW = 0)) =
        l.filter fun kind => (elfImagePart sections kind).isSome := by
    intro l hl
    apply filter_congr
    intro kind hkind
    simp [hl kind hkind]
  have hlast : ([LinkSectionKind.tls, .data, .bss].filter fun kind =>
      decide ((elfImagePart sections kind).isSome ∧ elfImageFlagsForKind kind &&& pfW = 0)) = [] := by
    apply filter_eq_nil_iff.mpr
    intro kind hkind
    have hnot : ¬ elfImageFlagsForKind kind &&& pfW = 0 := by
      revert hkind
      cases kind <;> decide
    exact fun h => hnot (of_decide_eq_true h).2
  rw [hfirst _ (by decide), hlast, length_nil, Nat.add_zero]

/-- A part comes from a section that is not empty. -/
theorem elfImagePart_eq_some {p : ElfImagePart} (h : elfImagePart sections kind = some p) :
    ∃ s, s ∈ Set.range sections ∧ elfImageSectionMemorySize s ≠ 0 ∧
      p.alignment = (if s.alignment ≠ 0 then s.alignment else 1) ∧ p.memorySize = elfImageSectionMemorySize s ∧
      p.fileSize = (if elfImageKindIsNobits kind then 0 else s.size) ∧
      p.sectionFlags = elfImageSectionFlagsForKind kind ∧ p.isTls = decide (kind = .tls) := by
  obtain ⟨merged, -, hpart⟩ := Option.bind_eq_some_iff.mp h
  obtain ⟨hcontent, hpart⟩ := Option.ite_none_right_eq_some.mp hpart
  cases hpart
  exact ⟨sections merged, ⟨merged, rfl⟩, of_decide_eq_true hcontent, rfl, rfl, rfl, rfl, rfl⟩

/-- Alignments are powers of two, or not set. -/
def PowerAligned (sections : Fin 7 → LinkedSection) : Prop :=
  ∀ k, (sections k).alignment = 0 ∨ (sections k).alignment.toNat.isPowerOfTwo

/-- Its alignment is a power of two. -/
theorem PowerAligned.wf (h : PowerAligned sections) {p : ElfImagePart} (hpart : elfImagePart sections kind = some p) :
    p.Wf := by
  obtain ⟨s, ⟨k, rfl⟩, hcontent, halign, hmemory, hfile, -, htls⟩ := elfImagePart_eq_some hpart
  have hsize : (sections k).size.toNat ≤ (elfImageSectionMemorySize (sections k)).toNat := by
    rw [elfImageSectionMemorySize]
    split
    · rename_i hlt
      exact (BitVec.lt_def.mp hlt).le
    · exact le_rfl
  constructor
  · rw [hfile, hmemory]
    split
    · exact Nat.zero_le _
    · exact hsize
  · rw [hmemory]
    apply Nat.pos_of_ne_zero
    intro h0
    exact hcontent (BitVec.eq_of_toNat_eq h0)
  · rw [halign]
    split
    · rename_i hne
      exact (h k).resolve_left hne
    · exact ⟨0, rfl⟩
  · intro ht
    rw [htls, decide_eq_true_eq] at ht
    rw [hfile, ht]
    rfl

/-- The read-only parts are neither writable nor thread-local. -/
theorem readOnlyParts_spec {p : ElfImagePart} (h : p ∈ readOnlyParts sections) :
    ¬ p.IsWritable ∧ p.isTls = false := by
  obtain ⟨kind, hkind, hpart⟩ := mem_filterMap.mp h
  obtain ⟨-, -, -, -, -, -, hflags, htls⟩ := elfImagePart_eq_some hpart
  rw [ElfImagePart.IsWritable, hflags, htls]
  revert hkind
  cases kind <;> decide

theorem writableParts_spec {p : ElfImagePart} (h : p ∈ writableParts sections) : p.IsWritable := by
  obtain ⟨kind, hkind, hpart⟩ := mem_filterMap.mp h
  obtain ⟨-, -, -, -, -, -, hflags, -⟩ := elfImagePart_eq_some hpart
  rw [ElfImagePart.IsWritable, hflags]
  revert hkind
  cases kind <;> decide

/-- Only the first of the writable parts can be thread-local. -/
theorem writableParts_tail {p : ElfImagePart} (h : p ∈ (writableParts sections).tail) : p.isTls = false := by
  have hlast {q : ElfImagePart} (hq : q ∈ [LinkSectionKind.data, .bss].filterMap (elfImagePart sections)) :
      q.isTls = false := by
    obtain ⟨kind, hkind, hpart⟩ := mem_filterMap.mp hq
    obtain ⟨-, -, -, -, -, -, -, htls⟩ := elfImagePart_eq_some hpart
    rw [htls]
    revert hkind
    cases kind <;> decide
  rw [writableParts] at h
  cases htls : elfImagePart sections .tls with
  | none =>
    rw [filterMap_cons_none htls] at h
    exact hlast (mem_of_mem_tail h)
  | some q =>
    rw [filterMap_cons_some htls] at h
    exact hlast h

/-! ## Where the parts go -/

/-- A part at `start` in the file and `displacement` above that in memory. -/
def ElfImagePart.at (p : ElfImagePart) (displacement : ℤ) (start : ℕ) : ElfImagePart :=
  { p with virtualAddress := BitVec.ofInt 64 (displacement + start), fileOffset := BitVec.ofNat 64 start }

/-- Parts one after another from `cursor` on. -/
def placedAt (displacement : ℤ) : ℕ → List ElfImagePart → List ElfImagePart
  | _, [] => []
  | cursor, p :: ps =>
    let start := roundUp cursor p.alignment.toNat
    p.at displacement start :: placedAt displacement (start + p.fileSize.toNat) ps

/-- Sums of words, over the naturals. -/
theorem ofNat_add_toNat (n : ℕ) (v : BitVec 64) : BitVec.ofNat 64 n + v = BitVec.ofNat 64 (n + v.toNat) := by
  rw [BitVec.ofNat_add, BitVec.ofNat_toNat, BitVec.setWidth_eq]

/-- Sums with an integer that may be negative. -/
theorem ofNat_add_ofInt (n : ℕ) (d : ℤ) : BitVec.ofNat 64 n + BitVec.ofInt 64 d = BitVec.ofInt 64 (d + n) := by
  rw [BitVec.ofInt_add, BitVec.add_comm]
  rfl

theorem ofInt_add_toNat (d : ℤ) (v : BitVec 64) : BitVec.ofInt 64 d + v = BitVec.ofInt 64 (d + v.toNat) := by
  rw [BitVec.ofInt_add, BitVec.ofInt_natCast, BitVec.ofNat_toNat, BitVec.setWidth_eq]

theorem ofInt_sub (x y : ℤ) : BitVec.ofInt 64 (x - y) = BitVec.ofInt 64 x - BitVec.ofInt 64 y := by
  rw [sub_eq_add_neg, BitVec.ofInt_add, BitVec.ofInt_neg, ← BitVec.sub_eq_add_neg]

section Walk

variable (partCount readOnlyCount : ℕ) (pageSize : BitVec 64) {displacement : ℤ} {cursor front i : ℕ}
  {p : ElfImagePart} {ps : List ElfImagePart}

/-- A part that does not switch to the writable segment. -/
theorem assign_at (hwf : p.Wf) (c : AddressCursor) (hoffset : c.offset = BitVec.ofNat 64 cursor)
    (hdelta : c.delta = BitVec.ofInt 64 displacement) :
    let start := roundUp cursor p.alignment.toNat
    c.assign p.alignment p = (p.at displacement start,
      { c with
        offset := BitVec.ofNat 64 (start + p.fileSize.toNat)
        address := if p.isTls then BitVec.ofInt 64 (displacement + start)
          else BitVec.ofInt 64 (displacement + (start + p.memorySize.toNat : ℕ)) }) := by
  have hstart := linkerAlignUp_ofNat cursor hwf.alignment
  have hfile (v : BitVec 64) (n : ℕ) : (if v ≠ 0 then BitVec.ofNat 64 n + v else BitVec.ofNat 64 n) =
      BitVec.ofNat 64 (n + v.toNat) := by
    split
    · exact ofNat_add_toNat n v
    · rename_i h0
      rw [not_not.mp h0]
      rfl
  unfold AddressCursor.assign ElfImagePart.at
  dsimp only
  rw [hoffset, hdelta, hstart, ofNat_add_ofInt, hfile]
  cases p.isTls with
  | true => rfl
  | false =>
    rw [Nat.cast_add, ← add_assoc, ← ofInt_add_toNat]
    rfl

/-- An alignment that is not zero stays. -/
theorem alignment_of_wf (hwf : p.Wf) : (if p.alignment ≠ 0 then p.alignment else 1) = p.alignment := by
  rw [if_pos]
  intro h0
  have hpos := alignment_pos hwf.alignment
  rw [h0] at hpos
  exact absurd hpos (by decide)

/-- The walk over parts that stay in one segment. -/
theorem assignFrom_placed (hwf : ∀ p ∈ ps, p.Wf)
    (hstay : ∀ j, i ≤ j → j < i + ps.length → ¬ (j = readOnlyCount ∧ readOnlyCount ≠ partCount))
    (c : AddressCursor) (hoffset : c.offset = BitVec.ofNat 64 cursor) (hdelta : c.delta = BitVec.ofInt 64 displacement) :
    let walk := elfImageAssignFrom partCount readOnlyCount pageSize i c ps
    walk.1 = placedAt displacement cursor ps ∧ walk.2.readOnlyEnd = c.readOnlyEnd ∧
      walk.2.readOnlyFileEnd = c.readOnlyFileEnd := by
  induction ps generalizing i c cursor with
  | nil => exact ⟨rfl, rfl, rfl⟩
  | cons p ps ih =>
    have hp := hwf p mem_cons_self
    have hhere := hstay i le_rfl (by rw [length_cons]; omega)
    have hassign := assign_at hp c hoffset hdelta
    obtain ⟨hplaced, hends⟩ := ih (i := i + 1) (fun q hq => hwf q (.tail _ hq))
      (fun j hj hlt => hstay j (by omega) (by rw [length_cons]; omega)) (c.assign p.alignment p).2
      (by rw [hassign]) (by rw [hassign]; exact hdelta)
    unfold elfImageAssignFrom
    dsimp only
    rw [alignment_of_wf hp, if_neg hhere]
    refine ⟨?_, hends.1.trans ?_, hends.2.trans ?_⟩
    · rw [hplaced, hassign]
      rfl
    · rw [hassign]
    · rw [hassign]

/-- The cursor behind parts that are not thread-local. -/
theorem assignFrom_cursor (hwf : ∀ p ∈ ps, p.Wf) (htls : ∀ p ∈ ps, p.isTls = false)
    (hstay : ∀ j, i ≤ j → j < i + ps.length → ¬ (j = readOnlyCount ∧ readOnlyCount ≠ partCount))
    (c : AddressCursor) (hoffset : c.offset = BitVec.ofNat 64 cursor) (hdelta : c.delta = BitVec.ofInt 64 displacement)
    (haddress : c.address = BitVec.ofInt 64 (displacement + front)) :
    (elfImageAssignFrom partCount readOnlyCount pageSize i c ps).2 =
      { c with
        offset := BitVec.ofNat 64 (fileStop cursor ps)
        address := BitVec.ofInt 64 (displacement + memoryStop cursor front ps) } := by
  induction ps generalizing i c cursor front with
  | nil =>
    rw [elfImageAssignFrom, fileStop, memoryStop, ← hoffset, ← haddress]
  | cons p ps ih =>
    have hp := hwf p mem_cons_self
    have hhere := hstay i le_rfl (by rw [length_cons]; omega)
    unfold elfImageAssignFrom
    dsimp only
    rw [alignment_of_wf hp, if_neg hhere, assign_at hp c hoffset hdelta]
    rw [if_neg (by rw [htls p mem_cons_self]; decide)]
    rw [ih (i := i + 1) (fun q hq => hwf q (.tail _ hq))
      (fun q hq => htls q (.tail _ hq))
      (fun j hj hlt => hstay j (by omega) (by rw [length_cons]; omega)) _ (by rfl) (by exact hdelta) (by rfl)]
    rfl

/-- The walk passes on to the second half of the parts. -/
theorem assignFrom_append (c : AddressCursor) (qs : List ElfImagePart) :
    elfImageAssignFrom partCount readOnlyCount pageSize i c (ps ++ qs) =
      let walk := elfImageAssignFrom partCount readOnlyCount pageSize i c ps
      let last := elfImageAssignFrom partCount readOnlyCount pageSize (i + ps.length) walk.2 qs
      (walk.1 ++ last.1, last.2) := by
  induction ps generalizing i c with
  | nil => rfl
  | cons p ps ih =>
    rw [cons_append, elfImageAssignFrom, elfImageAssignFrom]
    dsimp only
    rw [ih, length_cons, Nat.add_assoc, Nat.add_comm 1]
    rfl

/-- The switch to the writable segment. -/
theorem enterWritable_spec (c : AddressCursor) {readOnlyEnd' : ℕ} (hpage : pageSize.toNat.isPowerOfTwo) (hwf : p.Wf)
    (hoffset : c.offset = BitVec.ofNat 64 cursor) (haddress : c.address = BitVec.ofNat 64 readOnlyEnd') :
    let start := writableStart cursor p
    c.enterWritable pageSize p.alignment =
      { offset := BitVec.ofNat 64 start
        delta := BitVec.ofInt 64 (writableDisplacement readOnlyEnd' pageSize.toNat start)
        address := c.address, readOnlyEnd := c.address, readOnlyFileEnd := c.offset } := by
  have hmod : BitVec.ofNat 64 (writableStart cursor p) % pageSize =
      BitVec.ofNat 64 (writableStart cursor p % pageSize.toNat) := by
    apply BitVec.eq_of_toNat_eq
    rw [BitVec.toNat_umod, BitVec.toNat_ofNat, BitVec.toNat_ofNat, Nat.mod_mod_of_dvd _ (dvd_two_pow_64 hpage)]
    symm
    apply Nat.mod_eq_of_lt
    exact (Nat.mod_lt _ (alignment_pos hpage)).trans pageSize.isLt
  unfold AddressCursor.enterWritable
  rw [hoffset, haddress, linkerAlignUp_ofNat _ hwf.alignment, linkerAlignUp_ofNat _ hpage]
  change AddressCursor.mk _ (_ - (BitVec.ofNat 64 (writableStart cursor p) -
    BitVec.ofNat 64 (writableStart cursor p) % pageSize)) _ _ _ = _
  rw [hmod, writableDisplacement, Nat.cast_sub (Nat.mod_le _ _), ofInt_sub, ofInt_sub, BitVec.ofInt_add]
  rw [BitVec.ofInt_natCast, BitVec.ofInt_natCast, BitVec.ofInt_natCast, BitVec.ofInt_natCast, BitVec.ofNat_toNat,
    BitVec.setWidth_eq]
  rfl

/-- The walk over the writable parts, from the switch on. -/
theorem assignFrom_writable (c : AddressCursor) {readOnlyEnd' : ℕ} (hpage : pageSize.toNat.isPowerOfTwo)
    (hwf : ∀ q ∈ p :: ps, q.Wf) (hcount : readOnlyCount ≠ partCount)
    (hoffset : c.offset = BitVec.ofNat 64 cursor) (haddress : c.address = BitVec.ofNat 64 readOnlyEnd') :
    let walk := elfImageAssignFrom partCount readOnlyCount pageSize readOnlyCount c (p :: ps)
    let start := writableStart cursor p
    walk.1 = placedAt (writableDisplacement readOnlyEnd' pageSize.toNat start) start (p :: ps) ∧
      walk.2.readOnlyEnd = c.address ∧ walk.2.readOnlyFileEnd = c.offset := by
  have hp := hwf p mem_cons_self
  have henter := enterWritable_spec pageSize c hpage hp hoffset haddress
  have hassign := assign_at hp (c.enterWritable pageSize p.alignment) (by rw [henter]) (by rw [henter])
  obtain ⟨hplaced, hends⟩ := assignFrom_placed partCount readOnlyCount pageSize (fun q hq => hwf q (.tail _ hq))
    (fun j (hj : readOnlyCount + 1 ≤ j) _ heq => by omega) ((c.enterWritable pageSize p.alignment).assign p.alignment p).2
    (by rw [hassign]) (by rw [hassign, henter])
  unfold elfImageAssignFrom
  dsimp only
  rw [alignment_of_wf hp, if_pos ⟨rfl, hcount⟩]
  refine ⟨?_, hends.1.trans ?_, hends.2.trans ?_⟩
  · rw [hplaced, hassign]
    rfl
  · rw [hassign, henter]
  · rw [hassign, henter]

end Walk

/-- The writable parts, behind read-only ones that end at `cursor` in the file. -/
def placedWritable (readOnlyEnd pageSize cursor : ℕ) : List ElfImagePart → List ElfImagePart
  | [] => []
  | first :: rest =>
    let start := writableStart cursor first
    placedAt (writableDisplacement readOnlyEnd pageSize start) start (first :: rest)

/-- Both segments. -/
theorem assignAddresses_spec {ro rw : List ElfImagePart} (hro : ∀ p ∈ ro, p.Wf ∧ p.isTls = false)
    (hrw : ∀ p ∈ rw, p.Wf) (imageBase : BitVec 64) {pageSize : BitVec 64} (hpage : pageSize.toNat.isPowerOfTwo) (h : ℕ) :
    elfImageAssignAddresses (ro ++ rw) ro.length imageBase pageSize (BitVec.ofNat 64 h) =
      (placedAt imageBase.toNat h ro ++
          placedWritable (imageBase.toNat + memoryStop h h ro) pageSize.toNat (fileStop h ro) rw,
        BitVec.ofNat 64 (imageBase.toNat + memoryStop h h ro), BitVec.ofNat 64 (fileStop h ro)) := by
  have hbase : imageBase = BitVec.ofInt 64 (imageBase.toNat : ℤ) := by
    rw [BitVec.ofInt_natCast, BitVec.ofNat_toNat, BitVec.setWidth_eq]
  have hstart : BitVec.ofNat 64 h + imageBase = BitVec.ofInt 64 ((imageBase.toNat : ℤ) + h) := by
    rw [← ofNat_add_ofInt, ← hbase]
  have hstay {n : ℕ} : ∀ j, 0 ≤ j → j < 0 + ro.length → ¬ (j = ro.length ∧ ro.length ≠ n) :=
    fun j _ hlt heq => by omega
  have hplaced := fun n => (assignFrom_placed n ro.length pageSize (fun p hp => (hro p hp).1) (hstay (n := n))
    ⟨BitVec.ofNat 64 h, imageBase, BitVec.ofNat 64 h + imageBase, 0, 0⟩ rfl hbase).1
  have hcursor := fun n => assignFrom_cursor n ro.length pageSize (fun p hp => (hro p hp).1)
    (fun p hp => (hro p hp).2) (hstay (n := n))
    ⟨BitVec.ofNat 64 h, imageBase, BitVec.ofNat 64 h + imageBase, 0, 0⟩ rfl hbase hstart
  have haddress : BitVec.ofInt 64 ((imageBase.toNat : ℤ) + memoryStop h h ro) =
      BitVec.ofNat 64 (imageBase.toNat + memoryStop h h ro) := by
    rw [← Nat.cast_add, BitVec.ofInt_natCast]
  unfold elfImageAssignAddresses
  rw [assignFrom_append]
  dsimp only
  rw [hplaced, hcursor, haddress]
  -- without a writable part the layout ends after the read-only ones
  cases rw with
  | nil =>
    rw [append_nil, if_pos rfl]
    rfl
  | cons first rest =>
    have hne : ro.length ≠ (ro ++ first :: rest).length := by
      rw [length_append, length_cons]
      omega
    rw [if_neg hne, Nat.zero_add]
    obtain ⟨hwritable, hend, hfileEnd⟩ := assignFrom_writable (ro ++ first :: rest).length ro.length pageSize
      (⟨BitVec.ofNat 64 (fileStop h ro), imageBase,
        BitVec.ofNat 64 (imageBase.toNat + memoryStop h h ro), 0, 0⟩ : AddressCursor) hpage hrw hne rfl rfl
    exact Prod.ext (congrArg (fun l => placedAt imageBase.toNat h ro ++ l) hwritable) (Prod.ext hend hfileEnd)

end Mettle.Linker

import Mettle.Linker.Sections

/-!
# What the merge lays out

The contributions of a merged section are aligned, lie apart and within the section, and hold the bytes
of their sections: exactly when no section is longer than its raw data by more than the padding that
happens to follow it. The merge advances past the raw data of such a section and not past the section.
-/

open Option BitVec
open List hiding Disjoint

namespace Mettle.Linker

/-- The addresses of a contribution in its merged section. -/
def LinkedSectionContribution.range (c : LinkedSectionContribution) : Set ℕ :=
  Set.Ico c.mergedOffset.toNat (c.mergedOffset.toNat + c.size.toNat)

/-- The order of the input. -/
def LinkedSectionContribution.Before (c d : LinkedSectionContribution) : Prop :=
  c.objectIndex < d.objectIndex ∨ (c.objectIndex = d.objectIndex ∧ c.sectionIndex < d.sectionIndex)

/-- The bytes a contribution has in the input. -/
def rawBytes (inputs : List LinkedInputObject) (c : LinkedSectionContribution) : List UInt8 :=
  match inputs[c.objectIndex]?.bind (·.object.sections[c.sectionIndex]?) with
  | some s => if s.kind = .bss then [] else s.rawData
  | none => []

/-- A merged section that is laid out well. -/
structure LinkedSection.Laid (raw : LinkedSectionContribution → List UInt8) (m : LinkedSection) : Prop where
  ordered : m.contributions.Pairwise LinkedSectionContribution.Before
  aligned : ∀ c ∈ m.contributions, c.mergedOffset.toNat % c.alignment.toNat = 0
  disjoint : m.contributions.Pairwise fun c d => Disjoint c.range d.range
  within : ∀ c ∈ m.contributions, c.mergedOffset.toNat + c.size.toNat ≤ m.virtualSize.toNat
  size_le : m.size ≤ m.virtualSize
  backed : ∀ c ∈ m.contributions, raw c ≠ [] → ∀ k < c.size.toNat,
    c.mergedOffset.toNat + k < m.size.toNat ∧ m.data[c.mergedOffset.toNat + k]? = some ((raw c).getD k 0)

namespace Piece

/-- What the merge advances by: the raw data when there is any. -/
def length (p : Piece) : BitVec 64 :=
  if p.raw ≠ [] then BitVec.ofNat 64 p.raw.length else p.contributionSize

/-- Where a piece starts. -/
def start (p : Piece) (v : BitVec 64) : BitVec 64 := linkerAlignUp v p.alignment

/-- The running end after a piece. -/
def stop (p : Piece) (v : BitVec 64) : BitVec 64 :=
  if v < p.start v + p.length then p.start v + p.length else v

/-- The contribution of a piece that starts at `start`. -/
def contribution (p : Piece) (start : BitVec 64) : LinkedSectionContribution :=
  ⟨p.objectIndex, p.sectionIndex, start, p.contributionSize, p.alignment⟩

end Piece

/-- The pieces behind a running end leave everything up to `limit` to the padding in front of them: the next
one that is not empty starts at `limit` or later, and raw data comes after the padding. -/
def Padded (limit : ℕ) : BitVec 64 → List Piece → Prop
  | _, [] => False
  | v, p :: ps =>
    if p.contributionSize = 0 then Padded limit (p.stop v) ps
    else limit ≤ (p.start v).toNat ∧ ∃ q ∈ p :: ps, q.raw ≠ []

/-- The condition on the pieces of a merged section. A piece starts at a multiple of its alignment, does not
wrap around, and what it has beyond its raw data is padding. -/
def Seated : BitVec 64 → List Piece → Prop
  | _, [] => True
  | v, p :: ps =>
    (p.start v).toNat % p.alignment.toNat = 0 ∧
    (p.contributionSize ≠ 0 → v ≤ p.start v ∧ (p.start v).toNat + p.contributionSize.toNat < 2 ^ 64) ∧
    (p.raw ≠ [] → p.raw.length < p.contributionSize.toNat →
      Padded ((p.start v).toNat + p.contributionSize.toNat) (p.stop v) ps) ∧
    Seated (p.stop v) ps

instance Padded.decidable (limit : ℕ) : ∀ v ps, Decidable (Padded limit v ps)
  | _, [] => inferInstanceAs (Decidable False)
  | v, p :: ps =>
    have := Padded.decidable limit (p.stop v) ps
    inferInstanceAs (Decidable (if p.contributionSize = 0 then Padded limit (p.stop v) ps
      else limit ≤ (p.start v).toNat ∧ ∃ q ∈ p :: ps, q.raw ≠ []))

instance Seated.decidable : ∀ v ps, Decidable (Seated v ps)
  | _, [] => inferInstanceAs (Decidable True)
  | v, p :: ps =>
    have := Seated.decidable (p.stop v) ps
    inferInstanceAs (Decidable (_ ∧ _ ∧ _ ∧ Seated (p.stop v) ps))

/-- The pieces of an object that go to a merged section. -/
def objectPieces (fallbackAlignment : BitVec 64) (k : Fin 7) (input : LinkedInputObject) (objectIndex : ℕ)
    (sections : List (LinkSection × ℕ)) : List Piece :=
  sections.filterMap fun (s, sectionIndex) =>
    (input.piece fallbackAlignment objectIndex sectionIndex s).bind fun (mergedIndex, p) =>
      if mergedIndex = k then some p else none

/-- The pieces of the input that go to a merged section, in the order of the input. -/
def pieces (fallbackAlignment : BitVec 64) (inputs : List LinkedInputObject) (k : Fin 7) : List Piece :=
  inputs.zipIdx.flatMap fun (input, objectIndex) =>
    objectPieces fallbackAlignment k input objectIndex input.object.sections.zipIdx

/-! ## Rounding up -/

/-- Clearing the bits of a mask subtracts them. -/
theorem and_not_toNat (x m : BitVec 64) : (x &&& ~~~m).toNat = x.toNat - (x &&& m).toNat := by
  have hzero : (x &&& m) &&& (x &&& ~~~m) = 0#64 := by
    ext i hi
    simp
    grind
  have hor : (x &&& m) ||| (x &&& ~~~m) = x := by
    ext i hi
    simp
    grind
  have hsum := congrArg BitVec.toNat (add_eq_or_of_and_eq_zero _ _ hzero)
  rw [hor] at hsum
  rw [toNat_add_of_and_eq_zero hzero] at hsum
  omega

/-- A rounding up that gets below what it rounds has wrapped around, and is below the alignment. -/
theorem linkerAlignUp_lt {v a : BitVec 64} (h : ¬ v ≤ linkerAlignUp v a) :
    (linkerAlignUp v a).toNat < a.toNat := by
  unfold linkerAlignUp at h ⊢
  split
  · rename_i ha
    rw [if_pos ha] at h
    exact absurd (BitVec.le_refl v) h
  · rename_i ha
    rw [if_neg ha, le_def, and_not_toNat] at h
    rw [and_not_toNat]
    have hmask : ((v + a - 1) &&& (a - 1)).toNat ≤ (a - 1).toNat := by
      rw [toNat_and]
      exact Nat.and_le_right
    have hpos : a.toNat ≠ 0 := fun h0 => ha (eq_of_toNat_eq h0)
    have hone : (a - 1).toNat = a.toNat - 1 := by
      rw [toNat_sub]
      simp
      omega
    have hsum : (v + a - 1).toNat = (v.toNat + a.toNat - 1) % 2 ^ 64 := by
      rw [toNat_sub, toNat_add]
      simp
      omega
    omega

theorem linkerAlignUp_zero (a : BitVec 64) : linkerAlignUp 0 a = 0 := by
  unfold linkerAlignUp
  split
  · rfl
  · simp

/-! ## One piece -/

namespace Piece

variable {p : Piece} {v : BitVec 64}

theorem le_stop (p : Piece) (v : BitVec 64) : v.toNat ≤ (p.stop v).toNat := by
  unfold stop
  split
  · rename_i h
    rw [lt_def] at h
    omega
  · exact le_rfl

/-- Without a wrap the running end is the end of what was advanced by. -/
theorem end_le_stop (h : (p.start v).toNat + p.length.toNat < 2 ^ 64) :
    (p.start v).toNat + p.length.toNat ≤ (p.stop v).toNat := by
  have hsum : (p.start v + p.length).toNat = (p.start v).toNat + p.length.toNat := by
    rw [toNat_add, Nat.mod_eq_of_lt h]
  unfold stop
  split
  · rw [hsum]
  · rename_i hle
    rw [lt_def, hsum] at hle
    omega

theorem start_of_empty_run (p : Piece) : p.start 0 = 0 := linkerAlignUp_zero p.alignment

/-- A start that wrapped around is no multiple of the alignment, or zero. -/
theorem start_eq_zero (hle : ¬ v ≤ p.start v) (halign : (p.start v).toNat % p.alignment.toNat = 0) :
    (p.start v).toNat = 0 := by
  rw [← halign]
  exact (Nat.mod_eq_of_lt (linkerAlignUp_lt hle)).symm

theorem length_of_raw (h : p.raw ≠ []) : p.length = BitVec.ofNat 64 p.raw.length := if_pos h

/-- A piece without data is as long as it says. -/
theorem length_of_empty (h : p.raw = []) : p.length = p.contributionSize := by
  unfold length
  rw [if_neg (by simpa using h)]

end Piece

/-- What placing a piece does to the merged section. -/
structure Placed (m : LinkedSection) (p : Piece) (m' : LinkedSection) : Prop where
  contributions : m'.contributions = m.contributions ++ [p.contribution (p.start m.virtualSize)]
  virtualSize : m'.virtualSize = p.stop m.virtualSize
  empty : p.raw = [] → m'.data = m.data ∧ m'.size = m.size
  fits : p.raw ≠ [] → (p.start m.virtualSize).toNat + p.raw.length < 2 ^ 64
  data : p.raw ≠ [] → m'.data = m.data.take (p.start m.virtualSize).toNat ++
    List.replicate ((p.start m.virtualSize).toNat - m.size.toNat) 0 ++ p.raw
  size : p.raw ≠ [] → m'.size = p.start m.virtualSize + p.length

/-- Reserving changes the capacity only. -/
theorem linkSectionReserveData_eq {m m' : LinkedSection} {n : BitVec 64}
    (h : linkSectionReserveData m n = some m') : m' = { m with dataCapacity := m'.dataCapacity } := by
  unfold linkSectionReserveData at h
  split at h
  · rw [← some.inj h]
  · rw [map_eq_some_iff] at h
    obtain ⟨capacity, -, rfl⟩ := h
    rfl

/-- What a successful placement does. -/
theorem LinkedSection.place_placed {m m' : LinkedSection} {p : Piece} (h : m.place p = some m') :
    Placed m p m' := by
  rw [LinkedSection.place, map_eq_some_iff] at h
  obtain ⟨grown, hgrown, rfl⟩ := h
  unfold LinkedSection.grow at hgrown
  by_cases hraw : p.raw = []
  · rw [if_neg (by simpa using hraw)] at hgrown
    rw [← some.inj hgrown]
    refine ⟨rfl, ?_, fun _ => ⟨rfl, rfl⟩, fun h => absurd hraw h, fun h => absurd hraw h, fun h => absurd hraw h⟩
    simp only [Piece.stop, Piece.length_of_empty hraw]
    rfl
  · rw [if_pos hraw, bind_eq_some_iff] at hgrown
    obtain ⟨reserved, hreserve, hcopy⟩ := hgrown
    rw [linkSectionReserveData_eq hreserve] at hcopy
    unfold LinkedSection.copyRaw at hcopy
    split at hcopy
    · rename_i hfits
      rw [← some.inj hcopy]
      refine ⟨rfl, ?_, fun h => absurd h hraw, fun _ => ?_, fun _ => rfl, fun _ => ?_⟩
      · simp only [Piece.stop, Piece.length_of_raw hraw]
        rfl
      · exact lt_of_le_of_lt hfits reserved.dataCapacity.isLt
      · rw [Piece.length_of_raw hraw]
        rfl
    · exact absurd hcopy (by simp)

/-! ## All pieces -/

/-- The merged section after some pieces. -/
def LinkedSection.placeAll : LinkedSection → List Piece → Option LinkedSection
  | m, [] => some m
  | m, p :: ps => (m.place p).bind fun m' => m'.placeAll ps

/-- The contributions of pieces behind a running end. -/
def contributionsFrom : BitVec 64 → List Piece → List LinkedSectionContribution
  | _, [] => []
  | v, p :: ps => p.contribution (p.start v) :: contributionsFrom (p.stop v) ps

/-- The running end after some pieces. -/
def stopAll : BitVec 64 → List Piece → BitVec 64
  | v, [] => v
  | v, p :: ps => stopAll (p.stop v) ps

theorem le_stopAll (v : BitVec 64) (ps : List Piece) : v.toNat ≤ (stopAll v ps).toNat := by
  induction ps generalizing v with
  | nil => exact le_rfl
  | cons p ps ih => exact (p.le_stop v).trans (ih (p.stop v))

/-- The contributions and the size after all pieces are placed. -/
theorem LinkedSection.placeAll_layout {m m' : LinkedSection} {ps : List Piece} (h : m.placeAll ps = some m') :
    m'.contributions = m.contributions ++ contributionsFrom m.virtualSize ps ∧
      m'.virtualSize = stopAll m.virtualSize ps := by
  induction ps generalizing m with
  | nil =>
    rw [← some.inj h]
    exact ⟨(append_nil _).symm, rfl⟩
  | cons p ps ih =>
    obtain ⟨m₁, hplace, hrest⟩ := bind_eq_some_iff.mp h
    have hplaced := LinkedSection.place_placed hplace
    obtain ⟨hcontributions, hvirtual⟩ := ih hrest
    rw [hplaced.virtualSize] at hcontributions hvirtual
    refine ⟨?_, hvirtual⟩
    rw [hcontributions, hplaced.contributions, List.append_assoc]
    rfl

/-- The buffer holds `size` bytes and no more than the section reserves. -/
structure LinkedSection.Filled (m : LinkedSection) : Prop where
  length : m.data.length = m.size.toNat
  le : m.size.toNat ≤ m.virtualSize.toNat

/-- A section whose data were as long as it stays so. -/
theorem Placed.filled {m m' : LinkedSection} {p : Piece} (h : Placed m p m') (hm : m.Filled) : m'.Filled := by
  by_cases hraw : p.raw = []
  · obtain ⟨hdata, hsize⟩ := h.empty hraw
    refine ⟨by rw [hdata, hsize, hm.length], ?_⟩
    rw [hsize, h.virtualSize]
    exact hm.le.trans (p.le_stop _)
  · have hfits := h.fits hraw
    have hsize : m'.size.toNat = (p.start m.virtualSize).toNat + p.raw.length := by
      rw [h.size hraw, Piece.length_of_raw hraw, toNat_add, toNat_ofNat]
      omega
    refine ⟨?_, ?_⟩
    · rw [h.data hraw, hsize]
      simp only [length_append, length_take, length_replicate, hm.length]
      omega
    · rw [h.virtualSize, hsize]
      have hlength : p.length.toNat = p.raw.length := by
        rw [Piece.length_of_raw hraw, toNat_ofNat]
        omega
      rw [← hlength]
      exact Piece.end_le_stop (by omega)

/-- So it does over all pieces. -/
theorem LinkedSection.placeAll_filled {m m' : LinkedSection} {ps : List Piece} (h : m.placeAll ps = some m')
    (hm : m.Filled) : m'.Filled := by
  induction ps generalizing m with
  | nil => exact some.inj h ▸ hm
  | cons p ps ih =>
    obtain ⟨m₁, hplace, hrest⟩ := bind_eq_some_iff.mp h
    exact ih hrest ((LinkedSection.place_placed hplace).filled hm)

/-- Raw data is part of a contribution, and ends below `2 ^ 64` where it is copied. -/
def Fits : BitVec 64 → List Piece → Prop
  | _, [] => True
  | v, p :: ps =>
    (p.raw ≠ [] → p.contributionSize ≠ 0 ∧ (p.start v).toNat + p.raw.length < 2 ^ 64) ∧ Fits (p.stop v) ps

/-- Pieces that were all placed fit. -/
theorem LinkedSection.placeAll_fits {m m' : LinkedSection} {ps : List Piece} (h : m.placeAll ps = some m')
    (hsized : ∀ p ∈ ps, p.raw ≠ [] → p.contributionSize ≠ 0) : Fits m.virtualSize ps := by
  induction ps generalizing m with
  | nil => trivial
  | cons p ps ih =>
    obtain ⟨m₁, hplace, hrest⟩ := bind_eq_some_iff.mp h
    have hplaced := LinkedSection.place_placed hplace
    refine ⟨fun hraw => ⟨hsized p (.head _) hraw, hplaced.fits hraw⟩, ?_⟩
    rw [← hplaced.virtualSize]
    exact ih hrest fun q hq => hsized q (mem_cons_of_mem p hq)

section

variable {v : BitVec 64} {p : Piece} {ps : List Piece} {limit : ℕ}

/-- The running end is past the raw data. -/
theorem Fits.raw_le_stop (h : Fits v (p :: ps)) (hraw : p.raw ≠ []) :
    (p.start v).toNat + p.raw.length ≤ (p.stop v).toNat := by
  have hfits := (h.1 hraw).2
  have hlength : p.length.toNat = p.raw.length := by
    rw [Piece.length_of_raw hraw, toNat_ofNat]
    omega
  rw [← hlength] at hfits ⊢
  exact Piece.end_le_stop hfits

/-- The running end is past a section without raw data. -/
theorem Seated.size_le_stop (h : Seated v (p :: ps)) (hraw : p.raw = []) :
    (p.start v).toNat + p.contributionSize.toNat ≤ (p.stop v).toNat := by
  have hend : (p.start v).toNat + p.length.toNat < 2 ^ 64 := by
    rw [Piece.length_of_empty hraw]
    by_cases hsize : p.contributionSize = 0
    · rw [hsize]
      exact (p.start v).isLt
    · exact (h.2.1 hsize).2
  rw [← Piece.length_of_empty hraw]
  exact Piece.end_le_stop hend

/-- A piece does not end before it starts. -/
theorem Seated.start_le_stop (h : Seated v (p :: ps)) (hfits : Fits v (p :: ps)) :
    (p.start v).toNat ≤ (p.stop v).toNat := by
  by_cases hraw : p.raw = []
  · have := h.size_le_stop hraw
    omega
  · have := hfits.raw_le_stop hraw
    omega

variable {c : LinkedSectionContribution}

/-- What is not empty starts behind the running end. -/
theorem Seated.le_offset (h : Seated v ps) (hc : c ∈ contributionsFrom v ps) (hsize : c.size ≠ 0) :
    v.toNat ≤ c.mergedOffset.toNat := by
  induction ps generalizing v with
  | nil => exact absurd hc not_mem_nil
  | cons p ps ih =>
    rcases mem_cons.mp hc with rfl | hc
    · exact (h.2.1 hsize).1
    · exact (p.le_stop v).trans (ih h.2.2.2 hc)

/-- What is not empty starts behind the padding. -/
theorem Padded.le_offset (hpad : Padded limit v ps) (h : Seated v ps) (hfits : Fits v ps)
    (hc : c ∈ contributionsFrom v ps) (hsize : c.size ≠ 0) : limit ≤ c.mergedOffset.toNat := by
  induction ps generalizing v with
  | nil => exact absurd hc not_mem_nil
  | cons p ps ih =>
    unfold Padded at hpad
    split at hpad
    · rename_i hempty
      rcases mem_cons.mp hc with rfl | hc
      · exact absurd hempty hsize
      · exact ih hpad h.2.2.2 hfits.2 hc
    · rcases mem_cons.mp hc with rfl | hc
      · exact hpad.1
      · have hstop := h.start_le_stop hfits
        have hoffset := h.2.2.2.le_offset hc hsize
        have := hpad.1
        omega

/-- The section reaches over the padding. -/
theorem Padded.le_stopAll (hpad : Padded limit v ps) (h : Seated v ps) (hfits : Fits v ps) :
    limit ≤ (stopAll v ps).toNat := by
  induction ps generalizing v with
  | nil => exact absurd hpad id
  | cons p ps ih =>
    unfold Padded at hpad
    split at hpad
    · exact ih hpad h.2.2.2 hfits.2
    · calc limit ≤ (p.start v).toNat := hpad.1
        _ ≤ (p.stop v).toNat := h.start_le_stop hfits
        _ ≤ (stopAll (p.stop v) ps).toNat := le_stopAll _ _

theorem range_eq_empty (h : c.size = 0) : c.range = ∅ := by
  simp [LinkedSectionContribution.range, h]

/-- A piece ends before the next one that is not empty, and within the section. -/
theorem Seated.head_end (h : Seated v (p :: ps)) (hfits : Fits v (p :: ps)) :
    (∀ d ∈ contributionsFrom (p.stop v) ps, d.size ≠ 0 →
      (p.start v).toNat + p.contributionSize.toNat ≤ d.mergedOffset.toNat) ∧
    (p.start v).toNat + p.contributionSize.toNat ≤ (stopAll (p.stop v) ps).toNat := by
  by_cases hlong : p.raw ≠ [] ∧ p.raw.length < p.contributionSize.toNat
  · have hpad := h.2.2.1 hlong.1 hlong.2
    exact ⟨fun d hd hsize => hpad.le_offset h.2.2.2 hfits.2 hd hsize, hpad.le_stopAll h.2.2.2 hfits.2⟩
  · have hstop : (p.start v).toNat + p.contributionSize.toNat ≤ (p.stop v).toNat := by
      by_cases hraw : p.raw = []
      · exact h.size_le_stop hraw
      · have := hfits.raw_le_stop hraw
        have : ¬ p.raw.length < p.contributionSize.toNat := fun hlt => hlong ⟨hraw, hlt⟩
        omega
    exact ⟨fun d hd hsize => hstop.trans (h.2.2.2.le_offset hd hsize), hstop.trans (le_stopAll _ _)⟩

/-- Every contribution is aligned as it asks. -/
theorem Seated.aligned (h : Seated v ps) :
    ∀ c ∈ contributionsFrom v ps, c.mergedOffset.toNat % c.alignment.toNat = 0 := by
  induction ps generalizing v with
  | nil => exact fun c hc => absurd hc not_mem_nil
  | cons p ps ih =>
    intro c hc
    rcases mem_cons.mp hc with rfl | hc
    · exact h.1
    · exact ih h.2.2.2 c hc

/-- No two contributions overlap. -/
theorem Seated.disjoint (h : Seated v ps) (hfits : Fits v ps) :
    (contributionsFrom v ps).Pairwise fun c d => Disjoint c.range d.range := by
  induction ps generalizing v with
  | nil => exact Pairwise.nil
  | cons p ps ih =>
    refine pairwise_cons.mpr ⟨fun d hd => ?_, ih h.2.2.2 hfits.2⟩
    by_cases hsize : d.size = 0
    · rw [range_eq_empty hsize]
      exact Set.disjoint_empty _
    · have hend := (h.head_end hfits).1 d hd hsize
      rw [Set.disjoint_left]
      intro k hk hk'
      have hlt : k < (p.start v).toNat + p.contributionSize.toNat := hk.2
      have hle : d.mergedOffset.toNat ≤ k := hk'.1
      omega

/-- Every contribution is inside the section. -/
theorem Seated.within (h : Seated v ps) (hfits : Fits v ps) :
    ∀ c ∈ contributionsFrom v ps, c.mergedOffset.toNat + c.size.toNat ≤ (stopAll v ps).toNat := by
  induction ps generalizing v with
  | nil => exact fun c hc => absurd hc not_mem_nil
  | cons p ps ih =>
    intro c hc
    rcases mem_cons.mp hc with rfl | hc
    · exact (h.head_end hfits).2
    · exact ih h.2.2.2 hfits.2 c hc

end

/-! ## The bytes -/

/-- Raw data that starts behind the running end is appended after some padding. -/
theorem Placed.data_eq {m m' : LinkedSection} {p : Piece} (h : Placed m p m') (hm : m.Filled)
    (hraw : p.raw ≠ []) (hle : m.virtualSize ≤ p.start m.virtualSize) :
    m'.data = m.data ++ (List.replicate ((p.start m.virtualSize).toNat - m.size.toNat) 0 ++ p.raw) := by
  have hlength : m.data.length ≤ (p.start m.virtualSize).toNat := by
    rw [hm.length]
    exact hm.le.trans hle
  rw [h.data hraw, take_of_length_le hlength, List.append_assoc]

/-- How pieces that fit take a filled section to `m'`. -/
inductive Laying (m' : LinkedSection) : LinkedSection → List Piece → Prop
  | done : Laying m' m' []
  | place {m m₁ : LinkedSection} {p : Piece} {ps : List Piece} (hplaced : Placed m p m₁) (hm : m.Filled)
      (hfits : Fits m.virtualSize (p :: ps)) (hrest : Laying m' m₁ ps) : Laying m' m (p :: ps)

/-- The placement of all pieces as a relation. -/
theorem LinkedSection.placeAll_laying {m m' : LinkedSection} {ps : List Piece} (h : m.placeAll ps = some m')
    (hm : m.Filled) (hfits : Fits m.virtualSize ps) : Laying m' m ps := by
  induction ps generalizing m with
  | nil => exact some.inj h ▸ .done
  | cons p ps ih =>
    obtain ⟨m₁, hplace, hrest⟩ := bind_eq_some_iff.mp h
    have hplaced := LinkedSection.place_placed hplace
    exact .place hplaced hm hfits (ih hrest (hplaced.filled hm) (hplaced.virtualSize ▸ hfits.2))

/-- Where raw data is still to come behind a piece without any, it comes later. -/
theorem later_raw {p : Piece} {ps : List Piece} (h : ∃ q ∈ p :: ps, q.raw ≠ []) (hp : p.raw = []) :
    ∃ q ∈ ps, q.raw ≠ [] := by
  obtain ⟨q, hq, hne⟩ := h
  rcases mem_cons.mp hq with rfl | hq
  · exact absurd hp hne
  · exact ⟨q, hq, hne⟩

section

variable {m m' : LinkedSection} {ps : List Piece} {k : ℕ}

/-- Bytes once placed stay. -/
theorem Laying.data (h : Laying m' m ps) (hseated : Seated m.virtualSize ps) : ∃ more, m'.data = m.data ++ more := by
  induction h with
  | done => exact ⟨[], (append_nil _).symm⟩
  | @place m m₁ p ps hplaced hm hfits hrest ih =>
    obtain ⟨more, hmore⟩ := ih (hplaced.virtualSize ▸ hseated.2.2.2)
    by_cases hraw : p.raw = []
    · exact ⟨more, by rw [hmore, (hplaced.empty hraw).1]⟩
    · have hle := (hseated.2.1 (hfits.1 hraw).1).1
      rw [hplaced.data_eq hm hraw hle, List.append_assoc] at hmore
      exact ⟨_, hmore⟩

/-- A byte of the buffer after a piece is there at the end. -/
theorem Laying.getElem? (h : Laying m' m ps) (hseated : Seated m.virtualSize ps) {b : UInt8}
    (hk : m.data[k]? = some b) : m'.data[k]? = some b := by
  obtain ⟨more, hmore⟩ := h.data hseated
  have hlt : k < m.data.length := (List.getElem?_eq_some_iff.mp hk).1
  rw [hmore, List.getElem?_append_left hlt, hk]

/-- The padding in front of raw data is zero. -/
theorem Placed.getElem?_padding {p : Piece} (h : Placed m p m') (hm : m.Filled)
    (hraw : p.raw ≠ []) (hle : m.virtualSize ≤ p.start m.virtualSize) (hk : m.size.toNat ≤ k)
    (hk' : k < (p.start m.virtualSize).toNat) : m'.data[k]? = some 0 := by
  rw [h.data_eq hm hraw hle, List.getElem?_append_right (by rw [hm.length]; exact hk),
    List.getElem?_append_left (by rw [length_replicate, hm.length]; omega), List.getElem?_replicate,
    if_pos (by rw [hm.length]; omega)]

section

variable (h : Laying m' m ps) (hseated : Seated m.virtualSize ps)
include h hseated

/-- When raw data is still to come, the section is zero from the bytes so far to the running end. -/
theorem Laying.zero (hraw : ∃ q ∈ ps, q.raw ≠ []) (hk : m.size.toNat ≤ k) (hk' : k < m.virtualSize.toNat) :
    m'.data[k]? = some 0 := by
  induction h with
  | done =>
    obtain ⟨q, hq, -⟩ := hraw
    exact absurd hq not_mem_nil
  | @place m m₁ p ps hplaced hm hfits hrest ih =>
    have hseated₁ : Seated m₁.virtualSize ps := hplaced.virtualSize ▸ hseated.2.2.2
    by_cases hp : p.raw = []
    · refine ih hseated₁ (later_raw hraw hp) ?_ ?_
      · rw [(hplaced.empty hp).2]
        exact hk
      · rw [hplaced.virtualSize]
        exact hk'.trans_le (p.le_stop _)
    · have hle := (hseated.2.1 (hfits.1 hp).1).1
      exact hrest.getElem? hseated₁ (hplaced.getElem?_padding hm hp hle hk (hk'.trans_le hle))

/-- What is left to the padding is zero. -/
theorem Laying.padded {limit : ℕ} (hpad : Padded limit m.virtualSize ps) (hk : m.size.toNat ≤ k) (hk' : k < limit) :
    m'.data[k]? = some 0 := by
  induction h with
  | done => exact absurd hpad id
  | @place m m₁ p ps hplaced hm hfits hrest ih =>
    have hseated₁ : Seated m₁.virtualSize ps := hplaced.virtualSize ▸ hseated.2.2.2
    unfold Padded at hpad
    split at hpad
    · rename_i hempty
      have hp : p.raw = [] := by
        by_contra hne
        exact (hfits.1 hne).1 hempty
      refine ih hseated₁ (hplaced.virtualSize ▸ hpad) ?_
      rw [(hplaced.empty hp).2]
      exact hk
    · rename_i hsize
      have hle := (hseated.2.1 hsize).1
      by_cases hp : p.raw = []
      · refine hrest.zero hseated₁ (later_raw hpad.2 hp) ?_ ?_
        · rw [(hplaced.empty hp).2]
          exact hk
        · have := hseated.start_le_stop hfits
          have := hpad.1
          rw [hplaced.virtualSize]
          omega
      · exact hrest.getElem? hseated₁ (hplaced.getElem?_padding hm hp hle hk (hk'.trans_le hpad.1))

/-- A contribution with raw data holds its bytes, and zeros behind them. -/
theorem Laying.backed {raw : LinkedSectionContribution → List UInt8}
    (hraw : ∀ p ∈ ps, ∀ start, raw (p.contribution start) = p.raw) :
    ∀ c ∈ contributionsFrom m.virtualSize ps, raw c ≠ [] → ∀ k < c.size.toNat,
      m'.data[c.mergedOffset.toNat + k]? = some ((raw c).getD k 0) := by
  induction h with
  | done => exact fun c hc => absurd hc not_mem_nil
  | @place m m₁ p ps hplaced hm hfits hrest ih =>
    have hseated₁ : Seated m₁.virtualSize ps := hplaced.virtualSize ▸ hseated.2.2.2
    intro c hc hne k hk
    rcases mem_cons.mp hc with rfl | hc
    · rw [hraw p mem_cons_self] at hne ⊢
      have hle : m.virtualSize.toNat ≤ (p.start m.virtualSize).toNat := (hseated.2.1 (hfits.1 hne).1).1
      have hsize := hm.le
      by_cases hkraw : k < p.raw.length
      · refine hrest.getElem? hseated₁ ?_
        rw [hplaced.data_eq hm hne hle, ← List.append_assoc, List.getElem?_append_right, length_append,
          length_replicate, hm.length, getD_eq_getElem?_getD, List.getElem?_eq_getElem hkraw]
        · simp only [Piece.contribution, getD_some]
          rw [show (p.start m.virtualSize).toNat + k -
            (m.size.toNat + ((p.start m.virtualSize).toNat - m.size.toNat)) = k by omega]
          exact List.getElem?_eq_getElem hkraw
        · simp only [length_append, length_replicate, hm.length, Piece.contribution]
          omega
      · rw [getD_eq_default _ _ (by omega)]
        have hpad := hseated.2.2.1 hne (lt_of_le_of_lt (not_lt.mp hkraw) hk)
        rw [← hplaced.virtualSize] at hpad
        refine hrest.padded hseated₁ hpad ?_ (Nat.add_lt_add_left hk _)
        have hfit := hplaced.fits hne
        rw [hplaced.size hne, Piece.length_of_raw hne, toNat_add, toNat_ofNat]
        simp only [Piece.contribution]
        omega
    · refine ih hseated₁ (fun q hq => hraw q (mem_cons_of_mem p hq)) c ?_ hne k hk
      rw [hplaced.virtualSize]
      exact hc

end

end

/-! ## The condition is needed -/

/-- A section that has anything has something at its beginning. -/
def LinkedSection.Rooted (m : LinkedSection) : Prop :=
  m.virtualSize ≠ 0 → ∃ c ∈ m.contributions, c.mergedOffset.toNat = 0 ∧ c.size ≠ 0

/-- The contributions so far and those to come lie apart and are aligned. -/
structure Apart (m : LinkedSection) (ps : List Piece) : Prop where
  rooted : m.Rooted
  aligned : ∀ c ∈ contributionsFrom m.virtualSize ps, c.mergedOffset.toNat % c.alignment.toNat = 0
  disjoint : (m.contributions ++ contributionsFrom m.virtualSize ps).Pairwise fun c d => Disjoint c.range d.range

/-- A section that starts with a contribution keeps doing so. -/
theorem Placed.rooted {m m' : LinkedSection} {p : Piece} (h : Placed m p m')
    (hsized : p.raw ≠ [] → p.contributionSize ≠ 0) (hm : m.Rooted) : m'.Rooted := by
  intro hne
  rw [h.contributions]
  by_cases hv : m.virtualSize = 0
  · refine ⟨_, mem_append_right _ (mem_singleton_self _), ?_, fun hsize : p.contributionSize = 0 => ?_⟩
    · rw [hv, Piece.start_of_empty_run]
      rfl
    -- an empty piece at the beginning moves nothing
    · have hraw : p.raw = [] := by
        by_contra hraw
        exact hsized hraw hsize
      apply hne
      rw [h.virtualSize, hv, Piece.stop, Piece.start_of_empty_run, Piece.length_of_empty hraw, hsize]
      rfl
  · obtain ⟨c, hc, hzero⟩ := hm hv
    exact ⟨c, mem_append_left _ hc, hzero⟩

/-- The pieces that are left are apart from what is placed. -/
theorem Apart.step {m m' : LinkedSection} {p : Piece} {ps : List Piece} (h : Apart m (p :: ps))
    (hfits : Fits m.virtualSize (p :: ps)) (hplaced : Placed m p m') : Apart m' ps := by
  refine ⟨hplaced.rooted (fun hraw => (hfits.1 hraw).1) h.rooted, ?_, ?_⟩
  · rw [hplaced.virtualSize]
    exact fun c hc => h.aligned c (.tail _ hc)
  · rw [hplaced.contributions, hplaced.virtualSize, List.append_assoc]
    exact h.disjoint

/-- A piece that is not empty does not wrap around: it would lie at the beginning. -/
theorem Apart.le_start {m : LinkedSection} {p : Piece} {ps : List Piece} (h : Apart m (p :: ps))
    (hsize : p.contributionSize ≠ 0) : m.virtualSize ≤ p.start m.virtualSize := by
  by_contra hle
  have hzero := Piece.start_eq_zero hle (h.aligned _ (.head _))
  have hv : m.virtualSize ≠ 0 := by
    intro hv
    rw [hv] at hle
    exact hle (le_def.mpr (Nat.zero_le _))
  obtain ⟨c, hc, hoffset, hcsize⟩ := h.rooted hv
  have hdisjoint := (pairwise_append.mp h.disjoint).2.2 c hc _ mem_cons_self
  have hpos : ∀ x : BitVec 64, x ≠ 0 → 0 < x.toNat := fun x hx =>
    Nat.pos_of_ne_zero fun h0 => hx (eq_of_toNat_eq h0)
  refine absurd hdisjoint (Set.not_disjoint_iff.mpr ⟨0, ⟨hoffset.le, ?_⟩, ⟨hzero.le, ?_⟩⟩)
  · rw [hoffset, Nat.zero_add]
    exact hpos _ hcsize
  · show 0 < (p.start m.virtualSize).toNat + p.contributionSize.toNat
    have := hpos _ hsize
    omega

/-- What overhangs the running end, with raw data still to come, overhangs into padding. -/
theorem Apart.padded {m m' : LinkedSection} {ps : List Piece} (hrun : Laying m' m ps) (h : Apart m ps)
    {c : LinkedSectionContribution} (hc : c ∈ m.contributions) (hoffset : c.mergedOffset.toNat ≤ m.virtualSize.toNat)
    (hraw : ∃ q ∈ ps, q.raw ≠ []) : Padded (c.mergedOffset.toNat + c.size.toNat) m.virtualSize ps := by
  induction hrun with
  | done =>
    obtain ⟨q, hq, -⟩ := hraw
    exact absurd hq not_mem_nil
  | @place m m₁ p ps hplaced hm hfits hrest ih =>
    unfold Padded
    split
    · rename_i hempty
      have hp : p.raw = [] := by
        by_contra hne
        exact (hfits.1 hne).1 hempty
      rw [← hplaced.virtualSize]
      refine ih (h.step hfits hplaced) ?_ ?_ (later_raw hraw hp)
      · rw [hplaced.contributions]
        exact mem_append_left _ hc
      · rw [hplaced.virtualSize]
        exact hoffset.trans (p.le_stop _)
    · rename_i hpsize
      refine ⟨?_, hraw⟩
      have hle : m.virtualSize.toNat ≤ (p.start m.virtualSize).toNat := h.le_start hpsize
      have hdisjoint := (pairwise_append.mp h.disjoint).2.2 c hc _ mem_cons_self
      by_contra hlt
      refine absurd hdisjoint (Set.not_disjoint_iff.mpr
        ⟨(p.start m.virtualSize).toNat, ⟨by omega, by omega⟩, ⟨le_rfl, ?_⟩⟩)
      show (p.start m.virtualSize).toNat < (p.start m.virtualSize).toNat + p.contributionSize.toNat
      have : p.contributionSize.toNat ≠ 0 := fun h0 => hpsize (eq_of_toNat_eq h0)
      omega

/-- Without raw data the bytes stay as they are. -/
theorem Laying.data_of_no_raw {m m' : LinkedSection} {ps : List Piece} (h : Laying m' m ps)
    (hraw : ∀ q ∈ ps, q.raw = []) : m'.data = m.data := by
  induction h with
  | done => rfl
  | place hplaced hm hfits hrest ih =>
    rw [ih fun q hq => hraw q (.tail _ hq), (hplaced.empty (hraw _ (.head _))).1]

/-- A section that is laid out as promised has seated each of its pieces. -/
theorem Laying.seated_of_laid {m m' : LinkedSection} {ps : List Piece} (hrun : Laying m' m ps) (happart : Apart m ps)
    (hwithin : ∀ c ∈ contributionsFrom m.virtualSize ps,
      c.mergedOffset.toNat + c.size.toNat ≤ m'.virtualSize.toNat)
    {raw : LinkedSectionContribution → List UInt8}
    (hraw : ∀ p ∈ ps, ∀ start, raw (p.contribution start) = p.raw)
    (hbacked : ∀ c ∈ contributionsFrom m.virtualSize ps, raw c ≠ [] → ∀ k < c.size.toNat,
      m'.data[c.mergedOffset.toNat + k]? = some ((raw c).getD k 0)) : Seated m.virtualSize ps := by
  induction hrun with
  | done => trivial
  | @place m m₁ p ps hplaced hm hfits hrest ih =>
    have happart₁ := happart.step hfits hplaced
    refine ⟨happart.aligned _ mem_cons_self, fun hsize => ⟨happart.le_start hsize, ?_⟩, fun hne hlong => ?_, ?_⟩
    · exact lt_of_le_of_lt (hwithin _ (.head _)) m'.virtualSize.isLt
    · have hlater : ∃ q ∈ ps, q.raw ≠ [] := by
        by_contra hnone
        have hdata := hrest.data_of_no_raw fun q hq => by
          by_contra hq'
          exact hnone ⟨q, hq, hq'⟩
        -- the first byte behind the raw data is past the buffer
        have hbyte := hbacked _ (.head _) (by rw [hraw p mem_cons_self]; exact hne) _ hlong
        have hlt := (List.getElem?_eq_some_iff.mp hbyte).1
        have hsize := hplaced.size hne
        have hfit := hplaced.fits hne
        rw [hdata, (hplaced.filled hm).length, hsize, Piece.length_of_raw hne, toNat_add,
          toNat_ofNat] at hlt
        simp only [Piece.contribution] at hlt
        omega
      rw [← hplaced.virtualSize]
      refine happart₁.padded (c := p.contribution (p.start m.virtualSize)) hrest ?_ ?_ hlater
      · rw [hplaced.contributions]
        exact mem_append_right _ (mem_singleton_self _)
      · have := hfits.raw_le_stop hne
        rw [hplaced.virtualSize]
        simp only [Piece.contribution]
        omega
    · rw [← hplaced.virtualSize]
      refine ih happart₁ (fun c hc => hwithin c ?_)
        (fun q hq => hraw q (mem_cons_of_mem p hq)) (fun c hc => hbacked c ?_)
      all_goals
        rw [hplaced.virtualSize] at hc
        exact .tail _ hc

end Mettle.Linker

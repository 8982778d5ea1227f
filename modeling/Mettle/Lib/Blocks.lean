import Mathlib

/-!
# Cutting a range into pieces

When a list of half-open ranges of integers cuts one range into pieces, and the cut into pieces of one length, the
last of which may be shorter.
-/

open List

namespace Mettle.Lib

/-- Ranges that are not empty, have no number in common and together are the range from `lo` to `hi`. -/
structure Cuts (lo hi : ℤ) (ranges : List (ℤ × ℤ)) : Prop where
  nonempty : ∀ r ∈ ranges, r.1 < r.2
  disjoint : ranges.Pairwise fun r r' => Disjoint (Set.Ico r.1 r.2) (Set.Ico r'.1 r'.2)
  covers : ∀ x, (∃ r ∈ ranges, x ∈ Set.Ico r.1 r.2) ↔ x ∈ Set.Ico lo hi

theorem Cuts.nil {lo hi : ℤ} (h : hi ≤ lo) : Cuts lo hi [] where
  nonempty := by simp
  disjoint := .nil
  covers x := by
    rw [Set.Ico_eq_empty (not_lt.mpr h)]
    simp

/-- One range is a cut. -/
theorem Cuts.single {lo hi : ℤ} (h : lo < hi) : Cuts lo hi [(lo, hi)] where
  nonempty := by simpa using h
  disjoint := pairwise_singleton _ _
  covers x := by simp

/-- The ranges of a cut are inside it. -/
theorem Cuts.bounds {lo hi : ℤ} {ranges : List (ℤ × ℤ)} (h : Cuts lo hi ranges) {r : ℤ × ℤ} (hr : r ∈ ranges) :
    lo ≤ r.1 ∧ r.1 < r.2 ∧ r.2 ≤ hi := by
  have hne := h.nonempty r hr
  have hfirst := (h.covers r.1).mp ⟨r, hr, le_rfl, hne⟩
  have hlast := (h.covers (r.2 - 1)).mp ⟨r, hr, by omega, by omega⟩
  refine ⟨hfirst.1, hne, ?_⟩
  have hlt := hlast.2
  omega

/-- The piece with the number `k` of those with a given length. -/
def piece (lo hi span : ℤ) (k : ℕ) : ℤ × ℤ := (lo + span * k, min (lo + span * k + span) hi)

/-- `n` pieces of one length cut a range when the last of them begins in it and ends behind it. -/
theorem cuts_pieces {lo hi span : ℤ} {n : ℕ} (hspan : 0 < span) (hlast : span * n < hi - lo + span)
    (hcover : hi - lo ≤ span * n) : Cuts lo hi ((range n).map (piece lo hi span)) := by
  have hbegins (k : ℕ) (hk : k < n) : span * k < hi - lo := by
    have hle : span * (k + 1 : ℤ) ≤ span * n := by
      apply Int.mul_le_mul_of_nonneg_left _ hspan.le
      exact_mod_cast hk
    rw [mul_add, mul_one] at hle
    omega
  constructor
  · intro r hr
    obtain ⟨k, hk, rfl⟩ := mem_map.mp hr
    have hstart := hbegins k (mem_range.mp hk)
    show lo + span * k < min (lo + span * k + span) hi
    omega
  · rw [pairwise_map]
    apply Pairwise.imp _ pairwise_lt_range
    intro k k' hlt
    rw [Set.disjoint_left]
    intro x hx hx'
    have hle : span * (k + 1 : ℤ) ≤ span * k' := by
      apply Int.mul_le_mul_of_nonneg_left _ hspan.le
      exact_mod_cast hlt
    rw [mul_add, mul_one] at hle
    have hend : x < lo + span * k + span := lt_of_lt_of_le hx.2 (min_le_left _ _)
    have hstart : lo + span * k' ≤ x := hx'.1
    omega
  · intro x
    constructor
    · rintro ⟨r, hr, hx⟩
      obtain ⟨k, hk, rfl⟩ := mem_map.mp hr
      have hpos : 0 ≤ span * k := Int.mul_nonneg hspan.le (Int.natCast_nonneg k)
      have hstart : lo + span * k ≤ x := hx.1
      exact ⟨by omega, lt_of_lt_of_le hx.2 (min_le_right _ _)⟩
    · rintro ⟨hlo, hhi⟩
      -- the piece that holds `x`
      have hdiv : 0 ≤ (x - lo) / span := Int.ediv_nonneg (by omega) hspan.le
      obtain ⟨k, hk⟩ := Int.eq_ofNat_of_zero_le hdiv
      have hfloor : span * k ≤ x - lo := by
        rw [← hk]
        exact Int.mul_ediv_self_le hspan.ne'
      have hceil : x - lo < span * k + span := by
        have hlt := Int.lt_mul_ediv_self_add (x := x - lo) hspan
        rw [hk] at hlt
        exact hlt
      have hkn : k < n := by
        by_contra hge
        have hle : span * (n : ℤ) ≤ span * k := by
          apply Int.mul_le_mul_of_nonneg_left _ hspan.le
          exact_mod_cast Nat.not_lt.mp hge
        omega
      refine ⟨piece lo hi span k, mem_map.mpr ⟨k, mem_range.mpr hkn, rfl⟩, ?_, ?_⟩
      · show lo + span * k ≤ x
        omega
      · show x < min (lo + span * k + span) hi
        omega

/-!
## Loops over blocks

Loops that take a range of memory in blocks of one size, and go on with what follows them where less than a block is
left. A step is given what the rest of the loop computes, so that it can leave the loop. Each loop has its rule: a
function of the position that every step absorbs, and that what follows the loop computes, is what the loop computes.
-/

variable {β : Type} {size : ℕ}

/-- `for (; n >= size; o += size, n -= size)` and what follows. -/
def whileBlocks (size : ℕ) (step : ℕ → β → β) (next : ℕ → ℕ → β) (o n : ℕ) : β :=
  if 0 < size ∧ size ≤ n then step o (whileBlocks size step next (o + size) (n - size)) else next o n
termination_by n
decreasing_by omega

/-- `while (n >= size) { n -= size; … }` and what follows, from the end of the range to its start. -/
def whileBack (size : ℕ) (step : ℕ → β → β) (next : ℕ → β) (n : ℕ) : β :=
  if 0 < size ∧ size ≤ n then step (n - size) (whileBack size step next (n - size)) else next n
termination_by n
decreasing_by omega

/-- `while (o % size != 0) { …; o++; }` and what follows. -/
def whileUnaligned (size : ℕ) (step : ℕ → β → β) (next : ℕ → β) (o : ℕ) : β :=
  if 0 < size ∧ o % size ≠ 0 then step o (whileUnaligned size step next (o + 1)) else next o
termination_by (size - o % size) % size
decreasing_by
  obtain ⟨hsize, hne⟩ := ‹0 < size ∧ o % size ≠ 0›
  have hlt := Nat.mod_lt o hsize
  rw [Nat.mod_eq_of_lt (show size - o % size < size by omega)]
  have hnext : (o + 1) % size = (o % size + 1) % size := (Nat.mod_add_mod o size 1).symm
  rw [hnext]
  rcases Nat.lt_or_ge (o % size + 1) size with hin | hend
  · rw [Nat.mod_eq_of_lt hin, Nat.mod_eq_of_lt (by omega)]
    omega
  · have hwrap : o % size + 1 = size := by omega
    rw [hwrap, Nat.mod_self, Nat.sub_zero, Nat.mod_self]
    omega

/-- `for (;; o += size)`, for as many turns as there is fuel. -/
def forever (size : ℕ) (stuck : β) (step : ℕ → β → β) : ℕ → ℕ → β
  | 0, _ => stuck
  | fuel + 1, o => step o (forever size stuck step fuel (o + size))

variable {step : ℕ → β → β} {o : ℕ} {next : ℕ → β}

/-- Induction over the blocks of a loop that goes up. -/
theorem whileBlocks_induct {P : ℕ → ℕ → β → Prop} {next : ℕ → ℕ → β} (hsize : 0 < size)
    (hstep : ∀ o n rest, size ≤ n → P (o + size) (n - size) rest → P o n (step o rest))
    (hnext : ∀ o n, n < size → P o n (next o n)) (o n : ℕ) : P o n (whileBlocks size step next o n) := by
  induction n using Nat.strong_induction_on generalizing o with
  | _ n ih =>
    rw [whileBlocks]
    by_cases hn : size ≤ n
    · rw [if_pos ⟨hsize, hn⟩]
      apply hstep o n _ hn
      exact ih (n - size) (by omega) (o + size)
    · rw [if_neg fun hboth => hn hboth.2]
      exact hnext o n (not_le.mp hn)

/-- What such a loop computes, by an invariant. -/
theorem whileBlocks_eq (Inv : ℕ → ℕ → Prop) (spec : ℕ → ℕ → β) {next : ℕ → ℕ → β} (hsize : 0 < size)
    (hstep : ∀ o n rest, Inv o n → size ≤ n → (Inv (o + size) (n - size) → rest = spec (o + size) (n - size)) → step o rest = spec o n)
    (hnext : ∀ o n, Inv o n → n < size → next o n = spec o n) {n : ℕ} (h : Inv o n) :
    whileBlocks size step next o n = spec o n :=
  whileBlocks_induct (P := fun o n b => Inv o n → b = spec o n) hsize
    (fun o n rest hn hrest hinv => hstep o n rest hinv hn hrest) (fun o n hn hinv => hnext o n hinv hn) o n h

/-- Induction over the blocks of a loop that goes down. -/
theorem whileBack_induct {P : ℕ → β → Prop} (hsize : 0 < size)
    (hstep : ∀ n rest, P n rest → P (n + size) (step n rest)) (hnext : ∀ n, n < size → P n (next n)) (n : ℕ) :
    P n (whileBack size step next n) := by
  induction n using Nat.strong_induction_on with
  | _ n ih =>
    rw [whileBack]
    by_cases hn : size ≤ n
    · obtain ⟨k, rfl⟩ : ∃ k, n = k + size := ⟨n - size, by omega⟩
      rw [if_pos ⟨hsize, hn⟩, Nat.add_sub_cancel]
      apply hstep k
      exact ih k (by omega)
    · rw [if_neg fun hboth => hn hboth.2]
      exact hnext n (not_le.mp hn)

/-- What such a loop computes. -/
theorem whileBack_eq {spec : ℕ → β} (hsize : 0 < size) (hstep : ∀ n, step n (spec n) = spec (n + size))
    (hnext : ∀ n, n < size → next n = spec n) (n : ℕ) : whileBack size step next n = spec n := by
  apply whileBack_induct (P := fun n b => b = spec n) hsize ?_ hnext
  intro n rest hrest
  rw [hrest, hstep]

/-- What a loop up to an alignment computes, by an invariant. -/
theorem whileUnaligned_eq (Inv : ℕ → Prop) (spec : ℕ → β)
    (hstep : ∀ o rest, Inv o → o % size ≠ 0 → (Inv (o + 1) → rest = spec (o + 1)) → step o rest = spec o)
    (hnext : ∀ o, Inv o → (0 < size → o % size = 0) → next o = spec o) (h : Inv o) :
    whileUnaligned size step next o = spec o := by
  induction o using whileUnaligned.induct size with
  | case1 o hin ih =>
    rw [whileUnaligned, if_pos hin]
    exact hstep o _ h hin.2 ih
  | case2 o hout =>
    rw [whileUnaligned, if_neg hout]
    apply hnext o h
    intro hsize
    by_contra hne
    exact hout ⟨hsize, hne⟩

/-- The fuel is enough to pass the last position that the invariant allows. -/
theorem forever_eq (Inv : ℕ → Prop) (spec : ℕ → β) (last : ℕ) {stuck : β} {fuel : ℕ} (hsize : 0 < size)
    (hstep : ∀ o rest, Inv o → (Inv (o + size) → rest = spec (o + size)) → step o rest = spec o)
    (hlast : ∀ o, Inv o → o ≤ last) (hfuel : last < o + fuel) (h : Inv o) :
    forever size stuck step fuel o = spec o := by
  induction fuel generalizing o with
  | zero => exact absurd (hlast o h) (by omega)
  | succ fuel ih =>
    apply hstep o _ h
    exact ih (by omega)

end Mettle.Lib

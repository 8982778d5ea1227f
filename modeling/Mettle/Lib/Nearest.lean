import Mathlib

/-!
# Rounding to the nearest of increasing values

The values that a number is rounded to are an increasing sequence, up to a top index. The nearest of them, ties going
to the even index, is told by the midpoints next to it, and of a number between two neighbours it is one of these.
Rounding first to finer values and then to coarser ones gives the nearest of the coarser ones except where the finer
value is a midpoint that the number itself is not.
-/

namespace Mettle.Lib

variable {K : Type} [Field K] [LinearOrder K] [IsStrictOrderedRing K] {v w : ℕ → K} {top : ℕ} {x : K} {n : ℕ}

/-- `v n` is a nearest value of those up to the top, and `n` is even if there is another one. -/
def Nearest (v : ℕ → K) (top : ℕ) (x : K) (n : ℕ) : Prop :=
  n ≤ top ∧ ∀ k ≤ top, |x - v n| ≤ |x - v k| ∧ (|x - v n| = |x - v k| → k ≠ n → Even n)

/-- The number is between the midpoints around `v n`, which belong to `n` when it is even. -/
structure Cell (v : ℕ → K) (top : ℕ) (x : K) (n : ℕ) : Prop where
  le_top : n ≤ top
  lower : ∀ k, k + 1 = n → v k + v n ≤ 2 * x ∧ (v k + v n = 2 * x → Even n)
  upper : n < top → 2 * x ≤ v n + v (n + 1) ∧ (2 * x = v n + v (n + 1) → Even n)

section

variable {a b : K}

/-- The right end is at least as near when the point is not below the middle. -/
theorem abs_sub_right_le_iff (h : a < b) : |x - b| ≤ |x - a| ↔ a + b ≤ 2 * x := by
  rcases abs_cases (x - a) with ⟨ha, _⟩ | ⟨ha, _⟩ <;> rcases abs_cases (x - b) with ⟨hb, _⟩ | ⟨hb, _⟩ <;>
    rw [ha, hb] <;> constructor <;> intro _ <;> linarith

/-- The left end is at least as near when the point is not above it. -/
theorem abs_sub_left_le_iff (h : a < b) : |x - a| ≤ |x - b| ↔ 2 * x ≤ a + b := by
  rcases abs_cases (x - a) with ⟨ha, _⟩ | ⟨ha, _⟩ <;> rcases abs_cases (x - b) with ⟨hb, _⟩ | ⟨hb, _⟩ <;>
    rw [ha, hb] <;> constructor <;> intro _ <;> linarith

theorem abs_sub_eq_iff (h : a < b) : |x - a| = |x - b| ↔ 2 * x = a + b := by
  rw [le_antisymm_iff, abs_sub_left_le_iff h, abs_sub_right_le_iff h, le_antisymm_iff]

end

/-- The nearest value has the point in its cell. -/
theorem Nearest.cell (hv : StrictMono v) (h : Nearest v top x n) : Cell v top x n where
  le_top := h.1
  lower := by
    rintro k rfl
    have hlt : v k < v (k + 1) := hv (Nat.lt_succ_self k)
    obtain ⟨hle, heven⟩ := h.2 k ((Nat.le_succ k).trans h.1)
    refine ⟨(abs_sub_right_le_iff hlt).mp hle, ?_⟩
    intro htie
    exact heven ((abs_sub_eq_iff hlt).mpr htie.symm).symm (Nat.lt_succ_self k).ne
  upper := by
    intro hn
    have hlt : v n < v (n + 1) := hv (Nat.lt_succ_self n)
    obtain ⟨hle, heven⟩ := h.2 (n + 1) hn
    refine ⟨(abs_sub_left_le_iff hlt).mp hle, ?_⟩
    intro htie
    exact heven ((abs_sub_eq_iff hlt).mpr htie) (Nat.lt_succ_self n).ne'

/-- The value whose cell the point is in is the nearest. -/
theorem Cell.nearest (hv : StrictMono v) (h : Cell v top x n) : Nearest v top x n := by
  refine ⟨h.le_top, ?_⟩
  intro k hk
  rcases lt_trichotomy k n with hlt | rfl | hgt
  · -- below, the neighbour is the closest competitor
    obtain ⟨j, rfl⟩ : ∃ j, n = j + 1 := ⟨n - 1, by omega⟩
    obtain ⟨hle, heven⟩ := h.lower j rfl
    have hkj : v k ≤ v j := hv.monotone (Nat.lt_succ_iff.mp hlt)
    have hkn : v k < v (j + 1) := hv hlt
    refine ⟨(abs_sub_right_le_iff hkn).mpr (by linarith), ?_⟩
    intro htie _
    have hmid := (abs_sub_eq_iff hkn).mp htie.symm
    exact heven (le_antisymm hle (by linarith))
  · exact ⟨le_rfl, fun _ hne => absurd rfl hne⟩
  · obtain ⟨hle, heven⟩ := h.upper (hgt.trans_le hk)
    have hkn : v (n + 1) ≤ v k := hv.monotone hgt
    have hnk : v n < v k := hv hgt
    refine ⟨(abs_sub_left_le_iff hnk).mpr (by linarith), ?_⟩
    intro htie _
    have hmid := (abs_sub_eq_iff hnk).mp htie
    exact heven (le_antisymm hle (by linarith))

/-- A value is nearest to itself. -/
theorem nearest_self (hv : StrictMono v) (hn : n ≤ top) : Nearest v top (v n) n := by
  refine ⟨hn, ?_⟩
  intro k _
  rw [sub_self, abs_zero]
  refine ⟨abs_nonneg _, ?_⟩
  intro hzero hne
  have heq : v n = v k := sub_eq_zero.mp (abs_eq_zero.mp hzero.symm)
  exact absurd (hv.injective heq).symm hne

/-- There is one nearest value with the tie broken to even. -/
theorem Nearest.unique (hv : StrictMono v) {m : ℕ} (h : Nearest v top x n) (h' : Nearest v top x m) : n = m := by
  wlog hlt : n < m generalizing n m
  · rcases Nat.lt_or_ge m n with hgt | hge
    · exact (this h' h hgt).symm
    · omega
  exfalso
  obtain ⟨j, rfl⟩ : ∃ j, m = j + 1 := ⟨m - 1, by omega⟩
  obtain ⟨hupper, heven⟩ := (h.cell hv).upper (hlt.trans_le h'.1)
  obtain ⟨hlower, heven'⟩ := (h'.cell hv).lower j rfl
  rcases Nat.eq_or_lt_of_le (Nat.lt_succ_iff.mp hlt) with rfl | hbetween
  · have htie : 2 * x = v n + v (n + 1) := le_antisymm hupper hlower
    exact absurd (heven htie) (Nat.even_add_one.mp (heven' htie.symm))
  · have hlo : v n < v j := hv hbetween
    have hhi : v (n + 1) < v (j + 1) := hv (Nat.succ_lt_succ hbetween)
    linarith

/-- Between two neighbours the midpoint decides. -/
theorem nearest_of_between (hv : StrictMono v) (hn : n + 1 ≤ top) (hlo : v n ≤ x) (hhi : x ≤ v (n + 1)) {r : ℕ}
    (hdown : 2 * x < v n + v (n + 1) ∨ 2 * x = v n + v (n + 1) ∧ Even n → r = n)
    (hup : v n + v (n + 1) < 2 * x ∨ 2 * x = v n + v (n + 1) ∧ ¬ Even n → r = n + 1) : Nearest v top x r := by
  apply Cell.nearest hv
  by_cases hbelow : 2 * x < v n + v (n + 1) ∨ 2 * x = v n + v (n + 1) ∧ Even n
  · obtain rfl := hdown hbelow
    refine ⟨by omega, ?_, ?_⟩
    · rintro k rfl
      have hlt : v k < v (k + 1) := hv (Nat.lt_succ_self k)
      exact ⟨by linarith, fun htie => absurd htie (by linarith)⟩
    · intro _
      rcases hbelow with hlt | ⟨heq, heven⟩
      · exact ⟨hlt.le, fun htie => absurd htie hlt.ne⟩
      · exact ⟨heq.le, fun _ => heven⟩
  · have habove : v n + v (n + 1) < 2 * x ∨ 2 * x = v n + v (n + 1) ∧ ¬ Even n := by
      rw [not_or, not_lt, not_and] at hbelow
      rcases lt_or_eq_of_le hbelow.1 with hlt | heq
      · exact .inl hlt
      · exact .inr ⟨heq.symm, hbelow.2 heq.symm⟩
    obtain rfl := hup habove
    refine ⟨hn, ?_, ?_⟩
    · intro k hk
      obtain rfl : k = n := Nat.succ.inj hk
      rcases habove with hlt | ⟨heq, hodd⟩
      · exact ⟨hlt.le, fun htie => absurd htie hlt.ne⟩
      · exact ⟨heq.ge, fun _ => Nat.even_add_one.mpr hodd⟩
    · intro _
      have hlt : v (n + 1) < v (n + 1 + 1) := hv (Nat.lt_succ_self _)
      exact ⟨by linarith, fun htie => absurd htie (by linarith)⟩

/-- From the top value on the top is nearest. -/
theorem nearest_top (hv : StrictMono v) (h : v top ≤ x) : Nearest v top x top := by
  apply Cell.nearest hv
  refine ⟨le_rfl, ?_, fun hlt => absurd hlt (lt_irrefl _)⟩
  rintro k rfl
  have hlt : v k < v (k + 1) := hv (Nat.lt_succ_self k)
  exact ⟨by linarith, fun htie => absurd htie (by linarith)⟩

/-! ## Rounding twice -/

section

variable {fine j i : ℕ}

/-- Rounding does not pass a value. -/
theorem Nearest.le_of_lt (h : Nearest w fine x j) (hi : i ≤ fine) (hlt : x < w i) : w j ≤ w i := by
  by_contra hgt
  have hle := (h.2 i hi).1
  rw [abs_sub_comm x, abs_sub_comm x, abs_of_nonneg (by linarith), abs_of_nonneg (by linarith)] at hle
  linarith

/-- Rounding up does not go below a value that the point is above. -/
theorem Nearest.ge_of_lt (h : Nearest w fine x j) (hi : i ≤ fine) (hlt : w i < x) : w i ≤ w j := by
  by_contra hgt
  have hle := (h.2 i hi).1
  rw [abs_of_nonneg (by linarith), abs_of_nonneg (by linarith)] at hle
  linarith

/-- A number that is one of the values is rounded to itself. -/
theorem Nearest.eq_of_eq (h : Nearest w fine x j) (hi : i ≤ fine) (heq : x = w i) : w j = x := by
  have hle := (h.2 i hi).1
  rw [← heq, sub_self, abs_zero] at hle
  exact (sub_eq_zero.mp (abs_nonpos_iff.mp hle)).symm

/-- The nearest values to a midpoint are its neighbours, and the even one of them is chosen. -/
theorem Nearest.of_tie (hv : StrictMono v) (h : Nearest v top x n) {k : ℕ} (hk : k < top)
    (htie : 2 * x = v k + v (k + 1)) : (n = k ∨ n = k + 1) ∧ Even n := by
  have hcell := h.cell hv
  rcases lt_trichotomy n k with hlt | rfl | hgt
  · have hle := (hcell.upper (hlt.trans hk)).1
    have hlo : v n < v k := hv hlt
    have hhi : v (n + 1) < v (k + 1) := hv (Nat.succ_lt_succ hlt)
    linarith
  · exact ⟨.inl rfl, (hcell.upper hk).2 htie⟩
  · obtain ⟨m, rfl⟩ : ∃ m, n = m + 1 := ⟨n - 1, by omega⟩
    obtain ⟨hle, heven⟩ := hcell.lower m rfl
    rcases Nat.eq_or_lt_of_le (Nat.lt_succ_iff.mp hgt) with rfl | hlt
    · exact ⟨.inr rfl, heven htie.symm⟩
    · have hlo : v k < v m := hv hlt
      have hhi : v (k + 1) < v (m + 1) := hv (Nat.succ_lt_succ hlt)
      linarith

/-- Rounding through finer values, the midpoints of the coarser ones being among them, gives the nearest coarser
value unless the finer value is a midpoint and the number lies on the side of its odd neighbour. -/
theorem nearest_through_iff (hv : StrictMono v) (hfine : Nearest w fine x j) (hn : Nearest v top (w j) n)
    (hmid : ∀ k < top, ∃ i ≤ fine, 2 * w i = v k + v (k + 1)) :
    Nearest v top x n ↔ ∀ k < top, 2 * w j = v k + v (k + 1) → (x < w j → Even k) ∧ (w j < x → Even (k + 1)) := by
  constructor
  -- on a tie of the coarse grid the side of the value tells which neighbour is the nearest
  · intro hx k hk htie
    obtain ⟨hside, heven⟩ := hn.of_tie hv hk htie
    have hcell := hx.cell hv
    constructor
    · intro hlt
      rcases hside with rfl | rfl
      · exact heven
      · have hle := (hcell.lower k rfl).1
        linarith
    · intro hlt
      rcases hside with rfl | rfl
      · have hle := (hcell.upper hk).1
        linarith
      · exact heven
  -- without such ties the coarse neighbour of the fine neighbour is the nearest itself
  · intro hties
    have hcell := hn.cell hv
    apply Cell.nearest hv
    refine ⟨hn.1, ?_, ?_⟩
    · rintro k rfl
      obtain ⟨i, hi, hwi⟩ := hmid k hn.1
      obtain ⟨hle, heven⟩ := hcell.lower k rfl
      rw [← hwi] at hle heven ⊢
      constructor
      · by_contra hlt
        have hxi : x < w i := by linarith
        have hij : w j = w i := le_antisymm (hfine.le_of_lt hi hxi) (by linarith)
        have hk := (hties k hn.1 (by rw [hij, hwi])).1 (by rw [hij]; exact hxi)
        exact absurd hk (Nat.even_add_one.mp (heven (by rw [hij])))
      · intro htie
        have hxi : x = w i := by linarith
        exact heven (by rw [hfine.eq_of_eq hi hxi, hxi])
    · intro hlt
      obtain ⟨i, hi, hwi⟩ := hmid n hlt
      obtain ⟨hle, heven⟩ := hcell.upper hlt
      rw [← hwi] at hle heven ⊢
      constructor
      · by_contra hgt
        have hxi : w i < x := by linarith
        have hij : w j = w i := le_antisymm (by linarith) (hfine.ge_of_lt hi hxi)
        have hn' := (hties n hlt (by rw [hij, hwi])).2 (by rw [hij]; exact hxi)
        exact absurd (heven (by rw [hij])) (Nat.even_add_one.mp hn')
      · intro htie
        have hxi : x = w i := by linarith
        exact heven (by rw [hfine.eq_of_eq hi hxi, hxi])

end

end Mettle.Lib

import Mathlib

/-!
# Division by multiplication

A quotient by `d` is the quotient of a product by a power of two, `m * M / P`, when `M * d` is a little
more than `P`. How much more is allowed depends on the largest dividend that is one less than a multiple
of `d`.
-/

namespace Mettle.Lib

section

variable {d δ P M nc m : ℕ}

section

variable (hM : M * d = P + δ)
include hM

/-- The product is large enough. -/
theorem magic_ge : m / d * P ≤ m * M := by
  calc m / d * P ≤ m / d * (P + δ) := Nat.mul_le_mul_left _ (Nat.le_add_right P δ)
    _ = m / d * d * M := by rw [← hM]; ring
    _ ≤ m * M := Nat.mul_le_mul_right M (Nat.div_mul_le_self m d)

theorem magic_gt (hδ : 0 < δ) (hm : 0 < m) : m / d * P < m * M := by
  have hMpos : 0 < M := Nat.pos_of_ne_zero fun h => by rw [h, Nat.zero_mul] at hM; omega
  rcases Nat.eq_zero_or_pos (m / d) with h | h
  · rw [h, Nat.zero_mul]
    exact Nat.mul_pos hm hMpos
  · calc m / d * P < m / d * (P + δ) := Nat.mul_lt_mul_of_pos_left (by omega) h
      _ = m / d * d * M := by rw [← hM]; ring
      _ ≤ m * M := Nat.mul_le_mul_right M (Nat.div_mul_le_self m d)

/-- The error `δ * m` is what the product exceeds the dividend by, against the distance to the next
multiple of `d`. -/
theorem magic_lt_iff (hd : 0 < d) : m * M < (m / d + 1) * P ↔ δ * m < (d - m % d) * P := by
  have hr : m % d < d := Nat.mod_lt m hd
  have hsplit : d * (m / d) + m % d = m := Nat.div_add_mod m d
  have hgap : d - m % d + m = (m / d + 1) * d := by
    rw [Nat.add_mul, Nat.one_mul, Nat.mul_comm (m / d)]
    omega
  have hleft : m * M * d = m * P + δ * m := by
    rw [Nat.mul_assoc, hM]
    ring
  have hright : (m / d + 1) * P * d = (d - m % d) * P + m * P := by
    rw [← Nat.add_mul, hgap]
    ring
  rw [← Nat.mul_lt_mul_right hd, hleft, hright]
  omega

/-- The product is small enough for every dividend up to the next one after `nc` that is one less than a
multiple of `d`. -/
theorem magic_lt (hnc : d ∣ nc + 1) (hδ : δ * nc < P) (hm : m < nc + d) : m * M < (m / d + 1) * P := by
  have hd : 0 < d := Nat.pos_of_dvd_of_pos hnc (Nat.succ_pos nc)
  have hle : d ≤ nc + 1 := Nat.le_of_dvd (Nat.succ_pos nc) hnc
  have hr : m % d < d := Nat.mod_lt m hd
  rw [magic_lt_iff hM hd]
  rcases Nat.lt_or_ge nc m with hgt | hge
  · -- `m = nc + 1 + r` with a remainder `r` below `d - 1`
    obtain ⟨r, rfl⟩ : ∃ r, m = nc + 1 + r := ⟨m - (nc + 1), by omega⟩
    obtain ⟨c, hc⟩ := hnc
    have hrem : (nc + 1 + r) % d = r := by
      rw [hc, Nat.mul_add_mod]
      exact Nat.mod_eq_of_lt (by omega)
    have hrest : δ * (1 + r) ≤ δ * nc := Nat.mul_le_mul_left δ (by omega)
    rw [hrem]
    calc δ * (nc + 1 + r) = δ * nc + δ * (1 + r) := by ring
      _ < 2 * P := by omega
      _ ≤ (d - r) * P := Nat.mul_le_mul_right P (by omega)
  · calc δ * m ≤ δ * nc := Nat.mul_le_mul_left δ hge
      _ < 1 * P := by omega
      _ ≤ (d - m % d) * P := Nat.mul_le_mul_right P (by omega)

/-- The quotient as the quotient of a product. -/
theorem magic_div (hnc : d ∣ nc + 1) (hδ : δ * nc < P) (hm : m < nc + d) : m * M / P = m / d :=
  Nat.div_eq_of_lt_le (magic_ge hM) (magic_lt hM hnc hδ hm)

/-- A bound on the error alone. -/
theorem magic_le (hd : 0 < d) (hδ : δ * m ≤ P) : m * M ≤ (m / d + 1) * P := by
  have hr : m % d < d := Nat.mod_lt m hd
  by_contra hgt
  have hsplit : d * (m / d) + m % d = m := Nat.div_add_mod m d
  have hlt : (m / d + 1) * P * d < m * M * d := Nat.mul_lt_mul_of_pos_right (by omega) hd
  have hleft : m * M * d = m * P + δ * m := by
    rw [Nat.mul_assoc, hM]
    ring
  have hge : (m + 1) * P ≤ (m / d + 1) * P * d := by
    calc (m + 1) * P ≤ (d * (m / d) + d) * P := Nat.mul_le_mul_right P (by omega)
      _ = (m / d + 1) * P * d := by ring
  have : (m + 1) * P = m * P + P := by ring
  omega

end

/-- For a dividend `n` that is one less than a multiple of `d`, a power of two times `n` misses the next
multiple by at most the power. -/
theorem magic_error_le {n k : ℕ} (hd : 0 < d) (hn : d ∣ n + 1) (hk : 0 < k) :
    d - n * k % d ≤ k := by
  obtain ⟨c, hc⟩ := hn
  have hdvd : d ∣ n * k + k := ⟨c * k, by rw [← Nat.mul_assoc, ← hc]; ring⟩
  have hsum : (n * k % d + k % d) % d = 0 := by
    rw [← Nat.add_mod]
    exact Nat.mod_eq_zero_of_dvd hdvd
  have hr : n * k % d < d := Nat.mod_lt _ hd
  have hk' : k % d < d := Nat.mod_lt _ hd
  have hle : k % d ≤ k := Nat.mod_le k d
  rcases Nat.lt_or_ge (n * k % d + k % d) d with hlt | hge
  · rw [Nat.mod_eq_of_lt hlt] at hsum
    have hkd : d ∣ k := Nat.dvd_of_mod_eq_zero (by omega)
    have := Nat.le_of_dvd hk hkd
    omega
  · omega

end

/-! ## Signed quotients -/

/-- Rounding towards zero is rounding down, plus one below zero. -/
theorem magic_tdiv {e P M : ℕ} {x : ℤ} (hP : 0 < P)
    (hpos : 0 ≤ x → x.natAbs / e * P ≤ x.natAbs * M ∧ x.natAbs * M < (x.natAbs / e + 1) * P)
    (hneg : x < 0 → x.natAbs / e * P < x.natAbs * M ∧ x.natAbs * M ≤ (x.natAbs / e + 1) * P) :
    x * M / P + (if x * M / P < 0 then 1 else 0) = x.tdiv e := by
  have hP' : (0 : ℤ) < P := by exact_mod_cast hP
  rcases lt_or_ge x 0 with hx | hx
  · obtain ⟨hlo, hhi⟩ := hneg hx
    have habs : x = -(x.natAbs : ℤ) := by omega
    generalize x.natAbs = m at *
    have hq : (0 : ℤ) ≤ (m / e : ℕ) := Int.natCast_nonneg _
    have hdiv : x * M / P = -((m / e : ℕ) : ℤ) - 1 := by
      rw [Int.ediv_eq_iff_of_pos hP', habs]
      zify at hlo hhi
      constructor <;> push_cast at * <;> nlinarith
    rw [hdiv, if_pos (by omega), habs, Int.neg_tdiv]
    simp
  · obtain ⟨hlo, hhi⟩ := hpos hx
    have habs : x = (x.natAbs : ℤ) := by omega
    generalize x.natAbs = m at *
    subst habs
    have hq : (0 : ℤ) ≤ (m / e : ℕ) := Int.natCast_nonneg _
    have hdiv : (m : ℤ) * M / P = ((m / e : ℕ) : ℤ) := by
      rw [← Nat.div_eq_of_lt_le hlo hhi]
      rfl
    rw [hdiv, if_neg (by omega)]
    simp

/-- Rounding towards zero is rounding down after a bias below zero. -/
theorem ediv_bias {x b : ℤ} (hb : 0 < b) : (x + (if x < 0 then b - 1 else 0)) / b = x.tdiv b := by
  split
  · rename_i hx
    have hsplit := Int.emod_add_mul_ediv (-x) b
    have hlo := Int.emod_nonneg (-x) hb.ne'
    have hhi := Int.emod_lt_of_pos (-x) hb
    have htdiv : x.tdiv b = -(-x / b) := by
      rw [← Int.tdiv_eq_ediv_of_nonneg (by omega : 0 ≤ -x), Int.neg_tdiv, neg_neg]
    rw [htdiv, Int.ediv_eq_iff_of_pos hb]
    constructor <;> linarith
  · rename_i hx
    rw [add_zero, Int.tdiv_eq_ediv_of_nonneg (by omega)]

/-! ## Doubling a dividend -/

section

variable {n d e : ℕ}

/-- Quotient and remainder of `2 * n + e` from those of `n`, when the doubled remainder reaches `d`. -/
theorem div_mod_double_of_ge (he : e ≤ 1) (hd : 0 < d) (h : d ≤ 2 * (n % d) + e) :
    (2 * n + e) / d = 2 * (n / d) + 1 ∧ (2 * n + e) % d = 2 * (n % d) + e - d := by
  have hr : n % d < d := Nat.mod_lt n hd
  have hsplit : d * (n / d) + n % d = n := Nat.div_add_mod n d
  have heq : 2 * n + e = (2 * (n % d) + e - d) + d * (2 * (n / d) + 1) := by
    rw [Nat.mul_add, Nat.mul_left_comm]
    omega
  have hlt : 2 * (n % d) + e - d < d := by omega
  rw [heq, Nat.add_mul_div_left _ _ hd, Nat.add_mul_mod_self_left, Nat.div_eq_of_lt hlt, Nat.mod_eq_of_lt hlt]
  exact ⟨Nat.zero_add _, rfl⟩

theorem div_mod_double_of_lt (hd : 0 < d) (h : 2 * (n % d) + e < d) :
    (2 * n + e) / d = 2 * (n / d) ∧ (2 * n + e) % d = 2 * (n % d) + e := by
  have hsplit : d * (n / d) + n % d = n := Nat.div_add_mod n d
  have heq : 2 * n + e = (2 * (n % d) + e) + d * (2 * (n / d)) := by
    rw [Nat.mul_left_comm]
    omega
  rw [heq, Nat.add_mul_div_left _ _ hd, Nat.add_mul_mod_self_left, Nat.div_eq_of_lt h, Nat.mod_eq_of_lt h]
  exact ⟨Nat.zero_add _, rfl⟩

end

end Mettle.Lib

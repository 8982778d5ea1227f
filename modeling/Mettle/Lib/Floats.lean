import Mettle.Lib.Nearest

/-!
# Binary floating-point formats

The numbers of a format that are not negative, in the order of their bit patterns, grow by one least unit up to the
smallest normal number and by twice as much in each binade above it. `units m n` is the number with the pattern `n` in
least units, for `m` bits of mantissa. The pattern that stands for infinity continues the sequence, so that overflow is
rounding to the top.
-/

namespace Mettle.Lib

/-- The number with a pattern, in least units: the mantissa, with its hidden bit and shifted by the exponent less one
in a normal number. -/
def units (m n : ℕ) : ℕ := if n < 2 ^ m then n else (2 ^ m + n % 2 ^ m) * 2 ^ (n / 2 ^ m - 1)

/-- Below the first binade the units are the number itself. -/
theorem units_of_lt {m n : ℕ} (h : n < 2 ^ m) : units m n = n := if_pos h

/-- The pattern of an exponent and a mantissa that may carry into the next one. -/
theorem units_normal {m e a : ℕ} (he : 1 ≤ e) (ha : a ≤ 2 ^ m) : units m (e * 2 ^ m + a) = (2 ^ m + a) * 2 ^ (e - 1) := by
  have hpos : 0 < 2 ^ m := Nat.two_pow_pos m
  have hge : 2 ^ m ≤ e * 2 ^ m := Nat.le_mul_of_pos_left _ he
  rw [units, if_neg (by omega)]
  rcases Nat.lt_or_eq_of_le ha with hlt | rfl
  · rw [Nat.mul_add_mod_of_lt hlt, Nat.mul_comm e, Nat.mul_add_div hpos, Nat.div_eq_of_lt hlt]
    rfl
  · have hcarry : e * 2 ^ m + 2 ^ m = (e + 1) * 2 ^ m := by ring
    rw [hcarry, Nat.mul_mod_left, Nat.mul_div_cancel _ hpos, Nat.add_zero]
    obtain ⟨d, rfl⟩ : ∃ d, e = d + 1 := ⟨e - 1, by omega⟩
    show 2 ^ m * 2 ^ (d + 1) = (2 ^ m + 2 ^ m) * 2 ^ d
    ring

/-- A longer mantissa that ends in zeros. -/
theorem units_mul_two_pow (m d k : ℕ) : units (m + d) (k * 2 ^ d) = units m k * 2 ^ d := by
  have hpos : 0 < 2 ^ d := Nat.two_pow_pos d
  rw [units, units, pow_add, Nat.mul_mod_mul_right, Nat.mul_div_mul_right _ _ hpos]
  simp only [Nat.mul_lt_mul_right hpos]
  split
  · rfl
  · ring

/-- The first binade starts at its power of two. -/
theorem units_two_pow (m : ℕ) : units m (2 ^ m) = 2 ^ m := by
  have h := units_normal (m := m) (e := 1) (a := 0) le_rfl (Nat.zero_le _)
  rw [Nat.one_mul, Nat.add_zero, Nat.sub_self, pow_zero, Nat.mul_one] at h
  exact h

/-- Up to the smallest normal number the pattern is the number. -/
theorem units_of_le {m n : ℕ} (h : n ≤ 2 ^ m) : units m n = n := by
  rcases Nat.lt_or_eq_of_le h with hlt | rfl
  · exact units_of_lt hlt
  · exact units_two_pow m

theorem units_strictMono (m : ℕ) : StrictMono (units m) := by
  apply strictMono_nat_of_lt_succ
  intro n
  have hpos : 0 < 2 ^ m := Nat.two_pow_pos m
  have hlt : n % 2 ^ m < 2 ^ m := Nat.mod_lt n hpos
  have hsplit : n = n / 2 ^ m * 2 ^ m + n % 2 ^ m := (Nat.div_add_mod' n (2 ^ m)).symm
  generalize n / 2 ^ m = e at hsplit
  generalize n % 2 ^ m = a at hsplit hlt
  subst hsplit
  rcases Nat.eq_zero_or_pos e with rfl | he
  · rw [Nat.zero_mul, Nat.zero_add, units_of_lt hlt, units_of_le hlt]
    exact Nat.lt_succ_self a
  · rw [Nat.add_assoc, units_normal he hlt.le, units_normal he hlt]
    apply Nat.mul_lt_mul_of_pos_right _ (Nat.two_pow_pos _)
    omega

/-- The values of a sequence of naturals in a field grow as the naturals do. -/
theorem unitsCast_strictMono (m : ℕ) : StrictMono fun n => (units m n : ℚ) := by
  intro a b hab
  show (units m a : ℚ) < units m b
  exact_mod_cast units_strictMono m hab

/-! ## Rounding a quotient by a power of two -/

/-- The quotient to the nearest number, ties to the even one. -/
def roundShift (a s : ℕ) : ℕ :=
  let keep := a / 2 ^ s
  let dropped := a % 2 ^ s
  let half := 2 ^ (s - 1)
  if dropped > half ∨ dropped = half ∧ keep % 2 ≠ 0 then keep + 1 else keep

/-- A number in the `keep`-th of equal steps is rounded to the nearest end of the step. -/
theorem nearest_roundShift {v : ℕ → ℚ} (hv : StrictMono v) {top a s base : ℕ} {step : ℚ} (hstep : 0 < step) (hs : 1 ≤ s)
    (hbase : Even base) (htop : base + a / 2 ^ s + 1 ≤ top) (hlo : v (base + a / 2 ^ s) = (a / 2 ^ s : ℕ) * step)
    (hhi : v (base + a / 2 ^ s + 1) = ((a / 2 ^ s : ℕ) + 1) * step) :
    Nearest v top ((a : ℚ) / 2 ^ s * step) (base + roundShift a s) := by
  have hpow : (0 : ℚ) < 2 ^ s := by positivity
  have hsplit : (a : ℚ) = 2 ^ s * (a / 2 ^ s : ℕ) + (a % 2 ^ s : ℕ) := by
    exact_mod_cast (Nat.div_add_mod a (2 ^ s)).symm
  have hlt : a % 2 ^ s < 2 ^ s := Nat.mod_lt a (Nat.two_pow_pos s)
  have hhalf : 2 ^ s = 2 * 2 ^ (s - 1) := by
    obtain ⟨d, rfl⟩ : ∃ d, s = d + 1 := ⟨s - 1, by omega⟩
    show 2 ^ (d + 1) = 2 * 2 ^ d
    ring
  have hparity : Even (base + a / 2 ^ s) ↔ a / 2 ^ s % 2 = 0 := by
    rw [Nat.even_add, iff_true_left hbase, Nat.even_iff]
  rw [roundShift]
  generalize a / 2 ^ s = keep at hsplit htop hlo hhi hparity ⊢
  generalize hdropped : a % 2 ^ s = dropped at hsplit hlt ⊢
  -- the number is `keep` steps and a part of one
  have hx : (a : ℚ) / 2 ^ s * step = keep * step + dropped / 2 ^ s * step := by
    rw [hsplit]
    field_simp
  have hcmp : (2 ^ s : ℚ) = 2 * (2 ^ (s - 1) : ℕ) := by exact_mod_cast hhalf
  have hc : (0 : ℚ) < 2 * step / 2 ^ s := by positivity
  have hmid : 2 * ((a : ℚ) / 2 ^ s * step) =
      v (base + keep) + v (base + keep + 1) + 2 * step / 2 ^ s * (dropped - (2 ^ (s - 1) : ℕ)) := by
    rw [hx, hlo, hhi, hcmp]
    field_simp
    ring
  generalize 2 ^ (s - 1) = half at hhalf hcmp hmid ⊢
  have hnonneg : (0 : ℚ) ≤ dropped / 2 ^ s * step := by positivity
  have hfrac : (dropped : ℚ) / 2 ^ s * step ≤ step := by
    apply mul_le_of_le_one_left hstep.le
    rw [div_le_one hpow]
    exact_mod_cast hlt.le
  have hdown : 2 * ((a : ℚ) / 2 ^ s * step) < v (base + keep) + v (base + keep + 1) ↔ dropped < half := by
    rw [hmid, add_lt_iff_neg_left, ← neg_pos, ← mul_neg, mul_pos_iff_of_pos_left hc, neg_sub, sub_pos, Nat.cast_lt]
  have htie : 2 * ((a : ℚ) / 2 ^ s * step) = v (base + keep) + v (base + keep + 1) ↔ dropped = half := by
    rw [hmid, add_eq_left, mul_eq_zero_iff_left hc.ne', sub_eq_zero, Nat.cast_inj]
  have hup : v (base + keep) + v (base + keep + 1) < 2 * ((a : ℚ) / 2 ^ s * step) ↔ half < dropped := by
    rw [hmid, lt_add_iff_pos_right, mul_pos_iff_of_pos_left hc, sub_pos, Nat.cast_lt]
  apply nearest_of_between hv htop
  · rw [hx, hlo]
    linarith
  · rw [hx, hhi]
    linarith
  · rw [hdown, htie, hparity]
    intro h
    rw [if_neg (by omega)]
  · rw [hup, htie, hparity]
    intro h
    rw [if_pos (by omega)]
    rfl

/-! ## Narrowing -/

/-- The pattern of a number of a format with `p` bits of mantissa, rounded to one with `q` bits whose exponents begin
`offset` later and end at the pattern `top` of infinity, by cases on the exponent. -/
def narrow (p q offset top n : ℕ) : ℕ :=
  let exponent := n / 2 ^ p
  let full := 2 ^ p + n % 2 ^ p
  if exponent = 0 then 0
  else if top ≤ (exponent - offset) * 2 ^ q then top
  else if exponent ≤ offset then
    if exponent + q < offset then 0 else roundShift full (p - q + 1 + (offset - exponent))
  else (exponent - offset - 1) * 2 ^ q + roundShift full (p - q)

section

variable {p q offset last n : ℕ}

theorem full_lt (p n : ℕ) : 2 ^ p + n % 2 ^ p < 2 ^ (p + 1) := by
  omega

/-- The number with an exponent that is not zero. -/
theorem units_of_exponent (h : n / 2 ^ p ≠ 0) : units p n = (2 ^ p + n % 2 ^ p) * 2 ^ (n / 2 ^ p - 1) := by
  rw [units, if_neg]
  intro hlt
  exact h (Nat.div_eq_of_lt hlt)

/-- Below half a unit the nearest number is zero. -/
theorem nearest_zero {top : ℕ} {x : ℚ} (hq : 1 ≤ q) (htop : 1 ≤ top) (hx : 0 ≤ x) (h : 2 * x < 1) :
    Nearest (fun k => (units q k : ℚ)) top x 0 := by
  have hone : units q 1 = 1 := units_of_lt (Nat.one_lt_two_pow (by omega))
  have hzero : units q 0 = 0 := units_of_lt (Nat.two_pow_pos q)
  apply nearest_of_between (unitsCast_strictMono q) (n := 0) htop
  · simpa [hzero] using hx
  · simp only [Nat.zero_add, hone, Nat.cast_one]
    linarith
  · intro _
    rfl
  · simp only [hone, hzero, Nat.cast_one, Nat.cast_zero, zero_add, Even.zero, not_true_eq_false, and_false, or_false]
    intro hgt
    linarith

theorem half_of_lt {a b : ℕ} (h : 2 * a < b) : 2 * ((a : ℚ) / b) < 1 := by
  have hb : (0 : ℚ) < b := by exact_mod_cast Nat.zero_lt_of_lt h
  rw [← mul_div_assoc, div_lt_one hb]
  exact_mod_cast h

variable {exponent full : ℕ}

/-- A number below the smallest normal one of the narrower format. -/
theorem narrow_subnormal (hq : 1 ≤ q) (hpq : q < p) (hlast : 2 ≤ last) (hexponent : exponent ≠ 0)
    (hfull : full < 2 ^ (p + 1)) (hsub : exponent ≤ offset) :
    Nearest (fun k => (units q k : ℚ)) (last * 2 ^ q)
      (((full * 2 ^ (exponent - 1) : ℕ) : ℚ) / (2 ^ (offset + p - q) : ℕ))
      (if exponent + q < offset then 0 else roundShift full (p - q + 1 + (offset - exponent))) := by
  have hpow : 2 ^ (offset + p - q) = 2 ^ (exponent - 1) * 2 ^ (p - q + 1 + (offset - exponent)) := by
    rw [← pow_add]
    congr 1
    omega
  have hone : 1 * 2 ^ q ≤ last * 2 ^ q := Nat.mul_le_mul_right _ (by omega)
  have hqpos : 0 < 2 ^ q := Nat.two_pow_pos q
  split
  -- far below half a unit, or a shift of the full mantissa
  · rename_i hsmall
    apply nearest_zero hq (by omega) (by positivity)
    apply half_of_lt
    have hle : 2 ^ (p + 2) ≤ 2 ^ (p - q + 1 + (offset - exponent)) := Nat.pow_le_pow_right (by norm_num) (by omega)
    have hlt : 2 * full < 2 ^ (p + 2) := by
      rw [pow_succ]
      omega
    calc 2 * (full * 2 ^ (exponent - 1)) = 2 ^ (exponent - 1) * (2 * full) := by ring
      _ < 2 ^ (exponent - 1) * 2 ^ (p - q + 1 + (offset - exponent)) :=
        Nat.mul_lt_mul_of_pos_left (hlt.trans_le hle) (Nat.two_pow_pos _)
      _ = 2 ^ (offset + p - q) := hpow.symm
  · have hkeep : full / 2 ^ (p - q + 1 + (offset - exponent)) < 2 ^ q := by
      rw [Nat.div_lt_iff_lt_mul (Nat.two_pow_pos _), ← pow_add]
      exact hfull.trans_le (Nat.pow_le_pow_right (by norm_num) (by omega))
    have hx : ((full * 2 ^ (exponent - 1) : ℕ) : ℚ) / (2 ^ (offset + p - q) : ℕ) =
        (full : ℚ) / 2 ^ (p - q + 1 + (offset - exponent)) * 1 := by
      rw [hpow]
      push_cast
      field_simp
    rw [hx, ← Nat.zero_add (roundShift _ _)]
    apply nearest_roundShift (unitsCast_strictMono q) one_pos (by omega) Even.zero
    · omega
    · rw [Nat.zero_add, units_of_lt hkeep, mul_one]
    · rw [Nat.zero_add, units_of_le hkeep, mul_one]
      push_cast
      rfl

/-- A number in the range of the normal ones of the narrower format. -/
theorem narrow_normal (hq : 1 ≤ q) (hpq : q < p) (hfull : full < 2 ^ (p + 1)) (hge : 2 ^ p ≤ full)
    (hnormal : offset < exponent) (hlt : exponent - offset < last) :
    Nearest (fun k => (units q k : ℚ)) (last * 2 ^ q)
      (((full * 2 ^ (exponent - 1) : ℕ) : ℚ) / (2 ^ (offset + p - q) : ℕ))
      ((exponent - offset - 1) * 2 ^ q + roundShift full (p - q)) := by
  obtain ⟨e, rfl⟩ : ∃ e, exponent = offset + e + 1 := ⟨exponent - offset - 1, by omega⟩
  rw [show offset + e + 1 - offset - 1 = e by omega, show offset + e + 1 - 1 = offset + e by omega]
  have hkeep : full / 2 ^ (p - q) < 2 * 2 ^ q := by
    rw [Nat.div_lt_iff_lt_mul (Nat.two_pow_pos _), mul_assoc, ← pow_add, Nat.add_sub_of_le hpq.le, ← pow_succ']
    exact hfull
  have hkeep' : 2 ^ q ≤ full / 2 ^ (p - q) := by
    rw [Nat.le_div_iff_mul_le (Nat.two_pow_pos _), ← pow_add, Nat.add_sub_of_le hpq.le]
    exact hge
  have hx : ((full * 2 ^ (offset + e) : ℕ) : ℚ) / (2 ^ (offset + p - q) : ℕ) =
      (full : ℚ) / 2 ^ (p - q) * 2 ^ e := by
    rw [show offset + p - q = offset + (p - q) by omega, pow_add, pow_add]
    push_cast
    field_simp
  -- the ends of the step, the upper one perhaps in the next binade
  have hgrid (a : ℕ) (ha : 2 ^ q ≤ a) (ha' : a ≤ 2 * 2 ^ q) : units q (e * 2 ^ q + a) = a * 2 ^ e := by
    have hsplit : e * 2 ^ q + a = (e + 1) * 2 ^ q + (a - 2 ^ q) := by
      rw [Nat.add_mul, Nat.one_mul]
      omega
    rw [hsplit, units_normal (by omega) (by omega), Nat.add_sub_of_le ha, Nat.add_sub_cancel]
  have hbase : Even (e * 2 ^ q) := by
    rw [Nat.even_mul, Nat.even_pow]
    exact .inr ⟨even_two, by omega⟩
  rw [hx]
  apply nearest_roundShift (unitsCast_strictMono q) (by positivity) (by omega) hbase
  · have hle : (e + 2) * 2 ^ q ≤ last * 2 ^ q := Nat.mul_le_mul_right _ (by omega)
    rw [Nat.add_mul] at hle
    omega
  · rw [hgrid _ hkeep' hkeep.le]
    push_cast
    rfl
  · rw [Nat.add_assoc, hgrid _ (by omega) (by omega)]
    push_cast
    rfl

/-- A number, in least units of the narrower format, whose top exponent is `last`: it is rounded to the nearest, ties
to the even pattern, and to infinity from the midpoint above the last finite number on. -/
theorem narrow_nearest (hq : 1 ≤ q) (hpq : q < p) (hoffset : q < offset) (hlast : 2 ≤ last) :
    Nearest (fun k => (units q k : ℚ)) (last * 2 ^ q) ((units p n : ℚ) / (2 ^ (offset + p - q) : ℕ))
      (narrow p q offset (last * 2 ^ q) n) := by
  have hfull := full_lt p n
  have hge : 2 ^ p ≤ 2 ^ p + n % 2 ^ p := Nat.le_add_right _ _
  have hqpos : 0 < 2 ^ q := Nat.two_pow_pos q
  rw [narrow]
  by_cases hzero : n / 2 ^ p = 0
  · -- a subnormal number is far below half a unit
    have hn : n < 2 ^ p := by
      rcases Nat.div_eq_zero_iff.mp hzero with h | h
      · exact absurd h (Nat.two_pow_pos p).ne'
      · exact h
    simp only [if_pos hzero]
    have hone : 1 * 2 ^ q ≤ last * 2 ^ q := Nat.mul_le_mul_right _ (by omega)
    apply nearest_zero hq (by omega) (by positivity)
    apply half_of_lt
    rw [units_of_lt hn]
    have hle : 2 ^ (p + 1) ≤ 2 ^ (offset + p - q) := Nat.pow_le_pow_right (by norm_num) (by omega)
    omega
  · rw [units_of_exponent hzero]
    generalize n / 2 ^ p = exponent at hzero ⊢
    generalize 2 ^ p + n % 2 ^ p = full at hfull hge ⊢
    simp only [if_neg hzero]
    -- past the last exponent, below the normal range, or a normal number
    by_cases htop : last ≤ exponent - offset
    · have hlarge : last * 2 ^ q ≤ (exponent - offset) * 2 ^ q := Nat.mul_le_mul_right _ htop
      rw [if_pos hlarge]
      apply nearest_top (unitsCast_strictMono q)
      have hinfinity : units q (last * 2 ^ q) = 2 ^ q * 2 ^ (last - 1) := by
        have h := units_normal (m := q) (e := last) (a := 0) (by omega) (Nat.zero_le _)
        exact h
      simp only [hinfinity]
      rw [le_div_iff₀ (by positivity)]
      have hle : 2 ^ q * 2 ^ (last - 1) * 2 ^ (offset + p - q) ≤ full * 2 ^ (exponent - 1) := by
        calc 2 ^ q * 2 ^ (last - 1) * 2 ^ (offset + p - q) = 2 ^ (p + (offset + last - 1)) := by
              rw [← pow_add, ← pow_add]
              congr 1
              omega
          _ ≤ 2 ^ (p + (exponent - 1)) := Nat.pow_le_pow_right (by norm_num) (by omega)
          _ = 2 ^ p * 2 ^ (exponent - 1) := pow_add _ _ _
          _ ≤ full * 2 ^ (exponent - 1) := Nat.mul_le_mul_right _ hge
      exact_mod_cast hle
    · have hsmall : ¬ last * 2 ^ q ≤ (exponent - offset) * 2 ^ q := by
        intro h
        exact htop (Nat.le_of_mul_le_mul_right h hqpos)
      rw [if_neg hsmall]
      by_cases hsub : exponent ≤ offset
      · rw [if_pos hsub]
        exact narrow_subnormal hq hpq hlast hzero hfull hsub
      · rw [if_neg hsub]
        exact narrow_normal hq hpq hfull hge (by omega) (by omega)

/-- Whole multiples of the power with an even factor are rounded apart. -/
theorem roundShift_add {c a s : ℕ} (hc : Even c) : roundShift (c * 2 ^ s + a) s = c + roundShift a s := by
  have hdiv : (c * 2 ^ s + a) / 2 ^ s = c + a / 2 ^ s := by
    rw [Nat.mul_comm, Nat.mul_add_div (Nat.two_pow_pos s)]
  have hparity : (c + a / 2 ^ s) % 2 = a / 2 ^ s % 2 := by
    rw [Nat.even_iff] at hc
    omega
  rw [roundShift, roundShift, hdiv, Nat.mul_add_mod', hparity]
  split <;> rfl

/-- Cutting mantissa bits off: the pattern is rounded as a number. -/
theorem roundShift_nearest (hq : 1 ≤ q) (hpq : q < p) (hn : n < last * 2 ^ p) :
    Nearest (fun k => (units q k : ℚ)) (last * 2 ^ q) ((units p n : ℚ) / (2 ^ (p - q) : ℕ)) (roundShift n (p - q)) := by
  have hpow : 2 ^ p = 2 ^ q * 2 ^ (p - q) := by rw [← pow_add, Nat.add_sub_of_le hpq.le]
  -- a subnormal number has no hidden bit; a normal one is rounded with it
  by_cases hzero : n / 2 ^ p = 0
  · have hlt : n < 2 ^ p := by
      rcases Nat.div_eq_zero_iff.mp hzero with h | h
      · exact absurd h (Nat.two_pow_pos p).ne'
      · exact h
    have hkeep : n / 2 ^ (p - q) < 2 ^ q := by
      rw [Nat.div_lt_iff_lt_mul (Nat.two_pow_pos _), ← hpow]
      exact hlt
    have hlast : 1 * 2 ^ q ≤ last * 2 ^ q := by
      apply Nat.mul_le_mul_right
      by_contra hnone
      rw [Nat.lt_one_iff.mp (Nat.not_le.mp hnone), Nat.zero_mul] at hn
      omega
    have hx : (units p n : ℚ) / (2 ^ (p - q) : ℕ) = (n : ℚ) / 2 ^ (p - q) * 1 := by
      rw [units_of_lt hlt, mul_one]
      push_cast
      rfl
    rw [hx, ← Nat.zero_add (roundShift _ _)]
    apply nearest_roundShift (unitsCast_strictMono q) one_pos (by omega) Even.zero
    · omega
    · rw [Nat.zero_add, units_of_lt hkeep, mul_one]
    · rw [Nat.zero_add, units_of_le hkeep, mul_one]
      push_cast
      rfl
  · have hsplit := Nat.div_add_mod' n (2 ^ p)
    have hexponent : n / 2 ^ p < last := by
      rw [Nat.div_lt_iff_lt_mul (Nat.two_pow_pos p)]
      exact hn
    have hfull := full_lt p n
    have hge : 2 ^ p ≤ 2 ^ p + n % 2 ^ p := Nat.le_add_right _ _
    have hnormal := @narrow_normal p q 0 last _ _ hq hpq hfull hge (Nat.pos_of_ne_zero hzero) hexponent
    have heven : Even ((n / 2 ^ p - 1) * 2 ^ q) := by
      rw [Nat.even_mul, Nat.even_pow]
      exact .inr ⟨even_two, by omega⟩
    have hpattern : n = (n / 2 ^ p - 1) * 2 ^ q * 2 ^ (p - q) + (2 ^ p + n % 2 ^ p) := by
      rw [Nat.mul_assoc, ← hpow]
      obtain ⟨d, hd⟩ : ∃ d, n / 2 ^ p = d + 1 := ⟨_, (Nat.succ_pred hzero).symm⟩
      rw [hd, Nat.add_mul, Nat.one_mul] at hsplit
      rw [hd, Nat.add_sub_cancel, ← Nat.add_assoc]
      exact hsplit.symm
    rw [units_of_exponent hzero]
    conv =>
      rhs
      rw [hpattern, roundShift_add heven]
    rw [show 0 + p - q = p - q by omega] at hnormal
    exact hnormal

end

end Mettle.Lib

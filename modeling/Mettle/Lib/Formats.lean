import Mettle.Lib.Floats

/-!
# Values of bit patterns

What the patterns of a binary interchange format stand for, and rounding to the nearest of them, in the terms of the
IEEE standard; and the same in the order of the patterns.
-/

namespace Mettle.Lib

/-- A binary interchange format: how many bits of its patterns are mantissa and how many exponent. The sign is the bit
in front of them. -/
structure Format where
  mantissa : ℕ
  exponent : ℕ

namespace Format

variable (f : Format) (u : ℕ)

/-- The bits behind the sign. -/
def magnitude : ℕ := u % 2 ^ (f.exponent + f.mantissa)

/-- The sign bit. -/
def sign : ℕ := u / 2 ^ (f.exponent + f.mantissa) % 2

/-- The magnitude of infinity. -/
def infinity : ℕ := (2 ^ f.exponent - 1) * 2 ^ f.mantissa

def bias : ℤ := 2 ^ (f.exponent - 1) - 1

def IsFinite : Prop := f.magnitude u < f.infinity

def IsInfinite : Prop := f.magnitude u = f.infinity

def IsNaN : Prop := f.infinity < f.magnitude u

instance : Decidable (f.IsFinite u) := Nat.decLt _ _

/-- The number that a finite pattern stands for. -/
def value : ℚ :=
  let exp := f.magnitude u / 2 ^ f.mantissa
  let mant := f.magnitude u % 2 ^ f.mantissa
  (-1) ^ f.sign u *
    if exp = 0 then (mant : ℚ) / 2 ^ f.mantissa * 2 ^ (1 - f.bias)
    else (1 + (mant : ℚ) / 2 ^ f.mantissa) * 2 ^ (exp - f.bias)

/-- The midpoint between the largest finite number and the next one with an exponent without bound. -/
def overflow : ℚ := (2 - 1 / 2 ^ (f.mantissa + 1)) * 2 ^ f.bias

/-- The pattern is the nearest finite one to a number, ties to an even pattern, or an infinity from the overflow bound
on. -/
structure RoundsTo (x : ℚ) (h : ℕ) : Prop where
  finite : |x| < f.overflow → f.IsFinite h ∧ ∀ g, f.IsFinite g →
    |x - f.value h| ≤ |x - f.value g| ∧ (|x - f.value h| = |x - f.value g| → f.value g ≠ f.value h → Even h)
  infinite : f.overflow ≤ |x| → f.IsInfinite h

/-- The least unit. -/
def unit : ℚ := 2 ^ (1 - f.bias - f.mantissa)

variable {f u}

theorem unit_pos : 0 < f.unit := zpow_pos two_pos _

/-- The least unit of a format in those of another. -/
theorem unit_div {g : Format} {d : ℕ} (h : 1 - g.bias - g.mantissa - (1 - f.bias - f.mantissa) = d) :
    f.unit / g.unit = 1 / (2 ^ d : ℕ) := by
  rw [unit, unit, ← zpow_sub₀ two_ne_zero, ← neg_sub, h, zpow_neg, zpow_natCast, one_div]
  push_cast
  rfl

/-- The value in least units. -/
theorem value_eq : f.value u = (-1) ^ f.sign u * (units f.mantissa (f.magnitude u) * f.unit) := by
  have hsplit := Nat.div_add_mod' (f.magnitude u) (2 ^ f.mantissa)
  have hpow : (2 : ℚ) ^ (f.mantissa : ℤ) = 2 ^ f.mantissa := zpow_natCast 2 f.mantissa
  rw [value, unit]
  congr 1
  by_cases hzero : f.magnitude u / 2 ^ f.mantissa = 0
  · rw [hzero, Nat.zero_mul, Nat.zero_add] at hsplit
    have hlt : f.magnitude u < 2 ^ f.mantissa := by omega
    simp only [if_pos hzero]
    rw [units_of_lt hlt, Nat.mod_eq_of_lt hlt, zpow_sub₀ two_ne_zero (1 - f.bias), hpow]
    ring
  · simp only [if_neg hzero]
    rw [units_of_exponent hzero]
    obtain ⟨e, he⟩ : ∃ e, f.magnitude u / 2 ^ f.mantissa = e + 1 := ⟨_, (Nat.succ_pred hzero).symm⟩
    rw [he]
    push_cast
    rw [show (e : ℤ) + 1 - f.bias = 1 - f.bias + (e : ℤ) by ring, zpow_add₀ two_ne_zero, zpow_sub₀ two_ne_zero (1 - f.bias),
      hpow, zpow_natCast]
    field_simp

/-! What the relation says in the order of the patterns. -/

section

variable {x : ℚ} {h g : ℕ}

/-- Whether a pattern is even does not depend on its sign. -/
theorem even_iff_magnitude (hm : 1 ≤ f.mantissa) : Even h ↔ Even (f.magnitude h) := by
  have hdvd : 2 ∣ 2 ^ (f.exponent + f.mantissa) := dvd_pow_self 2 (by omega)
  rw [magnitude, Nat.even_iff, Nat.even_iff, Nat.mod_mod_of_dvd h hdvd]

theorem infinity_pos (he : 2 ≤ f.exponent) : 1 ≤ f.infinity := by
  have hpow : 2 ^ 2 ≤ 2 ^ f.exponent := Nat.pow_le_pow_right (by norm_num) he
  exact Nat.mul_pos (by omega) (Nat.two_pow_pos _)

/-- The overflow bound in least units. -/
theorem overflow_eq (he : 2 ≤ f.exponent) : 2 * (f.overflow / f.unit) =
    units f.mantissa (f.infinity - 1) + units f.mantissa f.infinity := by
  have hpow : 2 ^ 2 ≤ 2 ^ f.exponent := Nat.pow_le_pow_right (by norm_num) he
  have hmpos : 0 < 2 ^ f.mantissa := Nat.two_pow_pos _
  -- the last exponent as `d + 2`, so that the powers of two compare
  obtain ⟨d, hd⟩ : ∃ d, 2 ^ f.exponent = d + 3 := ⟨2 ^ f.exponent - 3, by omega⟩
  have htop : units f.mantissa f.infinity = 2 ^ f.mantissa * 2 ^ (d + 1) := by
    have hunits := units_normal (m := f.mantissa) (e := d + 2) (a := 0) (by omega) (Nat.zero_le _)
    rw [infinity, hd]
    exact hunits
  have hlast : units f.mantissa (f.infinity - 1) = (2 ^ f.mantissa + (2 ^ f.mantissa - 1)) * 2 ^ d := by
    have hunits := units_normal (m := f.mantissa) (e := d + 1) (a := 2 ^ f.mantissa - 1) (by omega) (by omega)
    have hsplit : (d + 2) * 2 ^ f.mantissa - 1 = (d + 1) * 2 ^ f.mantissa + (2 ^ f.mantissa - 1) := by
      rw [show d + 2 = d + 1 + 1 from rfl, Nat.add_mul (d + 1) 1, Nat.one_mul]
      omega
    rw [infinity, hd, show d + 3 - 1 = d + 2 by omega, hsplit]
    exact hunits
  have hbias : 2 * f.bias - 1 = d := by
    have hexp : (2 : ℤ) ^ f.exponent = 2 * 2 ^ (f.exponent - 1) := by
      obtain ⟨e, heq⟩ : ∃ e, f.exponent = e + 1 := ⟨f.exponent - 1, by omega⟩
      rw [heq, Nat.add_sub_cancel]
      ring
    have hcast : (2 : ℤ) ^ f.exponent = d + 3 := by exact_mod_cast hd
    rw [bias]
    omega
  have hunit : f.overflow / f.unit = (2 - 1 / 2 ^ (f.mantissa + 1)) * (2 ^ d * 2 ^ f.mantissa) := by
    have hexp : f.bias = 1 - f.bias - f.mantissa + (d + f.mantissa : ℕ) := by omega
    rw [overflow, unit]
    conv_lhs =>
      enter [1, 2]
      rw [hexp, zpow_add₀ two_ne_zero, zpow_natCast, pow_add]
    field_simp
  rw [hunit, htop, hlast]
  push_cast [Nat.one_le_two_pow]
  field_simp
  ring

/-- What rounds to a finite value, in units. -/
theorem lt_overflow_iff (he : 2 ≤ f.exponent) : |x| < f.overflow ↔
    2 * (|x| / f.unit) < units f.mantissa (f.infinity - 1) + units f.mantissa f.infinity := by
  rw [← overflow_eq he, mul_lt_mul_iff_right₀ two_pos, div_lt_div_iff_of_pos_right unit_pos]

/-- The distance to a value of the same sign. -/
theorem dist_of_sign (hx : x = (-1) ^ f.sign h * |x|) (hg : f.sign g = f.sign h) :
    |x - f.value g| = |(|x| / f.unit) - units f.mantissa (f.magnitude g)| * f.unit := by
  have hfactor : x - f.value g =
      (-1) ^ f.sign h * ((|x| / f.unit - units f.mantissa (f.magnitude g)) * f.unit) := by
    conv_lhs => rw [hx]
    rw [value_eq, hg, sub_mul, div_mul_cancel₀ _ unit_pos.ne']
    ring
  rw [hfactor, abs_mul, abs_pow, abs_neg, abs_one, one_pow, one_mul, abs_mul, abs_of_pos (unit_pos (f := f))]

theorem sign_lt_two (u : ℕ) : f.sign u < 2 := Nat.mod_lt _ (by norm_num)

/-- The distance to a value of the other sign. -/
theorem dist_of_ne_sign (hx : x = (-1) ^ f.sign h * |x|) (hg : f.sign g ≠ f.sign h) :
    |x - f.value g| = (|x| / f.unit + units f.mantissa (f.magnitude g)) * f.unit := by
  have hother : (-1 : ℚ) ^ f.sign g = -(-1) ^ f.sign h := by
    have hlt := f.sign_lt_two g
    have hlt' := f.sign_lt_two h
    obtain ⟨hg', hh⟩ | ⟨hg', hh⟩ : f.sign g = 0 ∧ f.sign h = 1 ∨ f.sign g = 1 ∧ f.sign h = 0 := by omega
    · rw [hg', hh]
      norm_num
    · rw [hg', hh]
      norm_num
  have hfactor : x - f.value g =
      (-1) ^ f.sign h * ((|x| / f.unit + units f.mantissa (f.magnitude g)) * f.unit) := by
    conv_lhs => rw [hx]
    rw [value_eq, hother, add_mul, div_mul_cancel₀ _ unit_pos.ne']
    ring
  have hpos : 0 ≤ |x| / f.unit + units f.mantissa (f.magnitude g) :=
    add_nonneg (div_nonneg (abs_nonneg _) unit_pos.le) (Nat.cast_nonneg _)
  rw [hfactor, abs_mul, abs_pow, abs_neg, abs_one, one_pow, one_mul, abs_mul, abs_of_nonneg hpos,
    abs_of_pos (unit_pos (f := f))]

theorem infinity_lt : f.infinity < 2 ^ (f.exponent + f.mantissa) := by
  rw [infinity, pow_add]
  apply Nat.mul_lt_mul_of_pos_right _ (Nat.two_pow_pos _)
  have hpos := Nat.two_pow_pos f.exponent
  omega

/-- The pattern with a sign and a magnitude. -/
def pattern (f : Format) (s k : ℕ) : ℕ := s * 2 ^ (f.exponent + f.mantissa) + k

/-- The magnitude of a pattern. -/
theorem magnitude_pattern {s k : ℕ} (hk : k < 2 ^ (f.exponent + f.mantissa)) : f.magnitude (f.pattern s k) = k := by
  rw [magnitude, pattern, Nat.mul_add_mod_of_lt hk]

/-- The sign of a pattern. -/
theorem sign_pattern {s k : ℕ} (hs : s < 2) (hk : k < 2 ^ (f.exponent + f.mantissa)) : f.sign (f.pattern s k) = s := by
  rw [sign, pattern, Nat.mul_comm, Nat.mul_add_div (Nat.two_pow_pos _), Nat.div_eq_of_lt hk, Nat.add_zero,
    Nat.mod_eq_of_lt hs]

theorem even_infinity (hm : 1 ≤ f.mantissa) : Even f.infinity := by
  rw [infinity, Nat.even_mul, Nat.even_pow]
  exact .inr ⟨even_two, by omega⟩

/-- A pattern of the right sign rounds a number just when its magnitude is nearest. -/
theorem roundsTo_iff (hm : 1 ≤ f.mantissa) (he : 2 ≤ f.exponent) (hx : x = (-1) ^ f.sign h * |x|) :
    f.RoundsTo x h ↔
      Nearest (fun k => (units f.mantissa k : ℚ)) f.infinity (|x| / f.unit) (f.magnitude h) := by
  have hv := unitsCast_strictMono f.mantissa
  have hpos := f.infinity_pos he
  have hunit := unit_pos (f := f)
  have hover := lt_overflow_iff (x := x) he
  -- in units of the least number of the format, so that both sides speak of one number
  generalize ht : |x| / f.unit = t at hover ⊢
  have hsame (g : ℕ) (hg : f.sign g = f.sign h) := dist_of_sign hx hg
  simp only [ht] at hsame
  constructor
  · intro hround
    -- below the overflow bound nothing else is nearer; above it only infinity is left
    by_cases hlt : |x| < f.overflow
    · obtain ⟨hfinite, hall⟩ := hround.finite hlt
      have hclose (k : ℕ) (hk : k < f.infinity) : |t - units f.mantissa (f.magnitude h)| ≤ |t - units f.mantissa k| ∧
          (|t - units f.mantissa (f.magnitude h)| = |t - units f.mantissa k| → k ≠ f.magnitude h →
            Even (f.magnitude h)) := by
        have hk' : k < 2 ^ (f.exponent + f.mantissa) := hk.trans infinity_lt
        have hsign := f.sign_pattern (f.sign_lt_two h) hk'
        have hmag := f.magnitude_pattern (s := f.sign h) hk'
        obtain ⟨hle, heven⟩ := hall (f.pattern (f.sign h) k) (by rw [IsFinite, hmag]; exact hk)
        rw [hsame h rfl, hsame _ hsign, hmag] at hle heven
        refine ⟨le_of_mul_le_mul_right hle hunit, ?_⟩
        intro htie hne
        rw [← even_iff_magnitude hm]
        apply heven (by rw [htie])
        rw [value_eq, value_eq, hsign, hmag]
        intro heq
        have hcancel := mul_right_cancel₀ hunit.ne' (mul_left_cancel₀ (pow_ne_zero _ (by norm_num)) heq)
        exact hne (hv.injective hcancel)
      refine ⟨hfinite.le, ?_⟩
      intro k hk
      rcases Nat.lt_or_eq_of_le hk with hk | rfl
      · exact hclose k hk
      · have hlast := (hclose (f.infinity - 1) (by omega)).1
        have hstep : (units f.mantissa (f.infinity - 1) : ℚ) < units f.mantissa f.infinity := hv (by omega)
        have hstrict : |t - units f.mantissa (f.infinity - 1)| < |t - units f.mantissa f.infinity| := by
          rw [← not_le, abs_sub_right_le_iff hstep, not_le]
          exact hover.mp hlt
        exact ⟨hlast.trans hstrict.le, fun htie => absurd htie (hlast.trans_lt hstrict).ne⟩
    · have hinf : f.magnitude h = f.infinity := hround.infinite (not_lt.mp hlt)
      rw [hover, not_lt] at hlt
      rw [hinf]
      apply Cell.nearest hv
      refine ⟨le_rfl, ?_, fun h => absurd h (lt_irrefl _)⟩
      intro k hk
      obtain rfl : k = f.infinity - 1 := by omega
      exact ⟨hlt, fun _ => even_infinity hm⟩
  · intro hnear
    -- nearest among the magnitudes puts the value in one cell of the grid
    have hcell := hnear.cell hv
    constructor
    · intro hlt
      rw [hover] at hlt
      have hfinite : f.magnitude h < f.infinity := by
        apply lt_of_le_of_ne hnear.1
        intro htop
        have hlower := (hcell.lower (f.infinity - 1) (by omega)).1
        rw [htop] at hlower
        linarith
      refine ⟨hfinite, ?_⟩
      intro g hg
      obtain ⟨hle, heven⟩ := hnear.2 (f.magnitude g) hg.le
      by_cases hsign : f.sign g = f.sign h
      · rw [hsame h rfl, hsame g hsign]
        refine ⟨mul_le_mul_of_nonneg_right hle hunit.le, ?_⟩
        intro htie hne
        rw [even_iff_magnitude hm]
        apply heven (mul_right_cancel₀ hunit.ne' htie)
        intro hmag
        apply hne
        rw [value_eq, value_eq, hsign, hmag]
      · -- zero is no farther than a number of the other sign
        obtain ⟨hzero, hevenZero⟩ := hnear.2 0 (Nat.zero_le _)
        have hunitsZero : units f.mantissa 0 = 0 := units_of_lt (Nat.two_pow_pos _)
        have htnonneg : 0 ≤ t := by
          rw [← ht]
          exact div_nonneg (abs_nonneg _) hunit.le
        simp only [hunitsZero, Nat.cast_zero, sub_zero, abs_of_nonneg htnonneg] at hzero hevenZero
        rw [hsame h rfl, dist_of_ne_sign hx hsign, ht]
        refine ⟨mul_le_mul_of_nonneg_right (by linarith) hunit.le, ?_⟩
        intro htie hne
        have htie' := mul_right_cancel₀ hunit.ne' htie
        have hgzero : (units f.mantissa (f.magnitude g) : ℚ) = 0 := by linarith
        rw [even_iff_magnitude hm]
        apply hevenZero (by linarith)
        intro hmag
        apply hne
        rw [value_eq, value_eq, hgzero, ← hmag, hunitsZero]
        simp
    · intro hge
      rw [← not_lt, hover, not_lt] at hge
      by_contra hne
      have hlt : f.magnitude h < f.infinity := lt_of_le_of_ne hnear.1 hne
      obtain ⟨hle, heven⟩ := hcell.upper hlt
      rcases Nat.lt_or_eq_of_le (Nat.le_sub_one_of_lt hlt) with hbelow | hlast
      · have hlo : (units f.mantissa (f.magnitude h) : ℚ) < units f.mantissa (f.infinity - 1) := hv hbelow
        have hhi : (units f.mantissa (f.magnitude h + 1) : ℚ) < units f.mantissa f.infinity := hv (by omega)
        linarith
      · rw [hlast, Nat.sub_add_cancel hpos] at hle heven
        have hodd := heven (le_antisymm hle hge)
        have heven' := even_infinity (f := f) hm
        rw [← Nat.sub_add_cancel hpos, Nat.even_add_one] at heven'
        exact heven' hodd

/-- A value is its sign and its absolute value. -/
theorem value_eq_sign_mul_abs : f.value u = (-1) ^ f.sign u * |f.value u| := by
  rw [value_eq, abs_mul, abs_pow, abs_neg, abs_one, one_pow, one_mul,
    abs_of_nonneg (mul_nonneg (Nat.cast_nonneg _) unit_pos.le)]

/-- The absolute value counts the units of the magnitude. -/
theorem abs_value : |f.value u| = units f.mantissa (f.magnitude u) * f.unit := by
  rw [value_eq, abs_mul, abs_pow, abs_neg, abs_one, one_pow, one_mul,
    abs_of_nonneg (mul_nonneg (Nat.cast_nonneg _) unit_pos.le)]

/-- A magnitude that is nearest, with the sign of the number, rounds it. -/
theorem roundsTo_pattern (hm : 1 ≤ f.mantissa) (he : 2 ≤ f.exponent) {s k : ℕ} (hs : s < 2) (hx : x = (-1) ^ s * |x|)
    (hnear : Nearest (fun k => (units f.mantissa k : ℚ)) f.infinity (|x| / f.unit) k) :
    f.RoundsTo x (f.pattern s k) := by
  have hk : k < 2 ^ (f.exponent + f.mantissa) := hnear.1.trans_lt infinity_lt
  rw [roundsTo_iff hm he, f.magnitude_pattern hk]
  · exact hnear
  · rw [f.sign_pattern hs hk]
    exact hx

end

end Format

/-!
## Rounding through a finer format

A number rounded to a finer format, and what came out rounded to a coarser one. The midpoints of the coarser format are
values of the finer one, and they alone can make the two roundings differ from one.
-/

/-! ## Multiples of powers of two -/

/-- A number with at most one bit more than the mantissa, times a power of two, is a value. -/
theorem exists_units {m N j : ℕ} (hN : N ≤ 2 ^ (m + 1)) : ∃ i, units m i = N * 2 ^ j := by
  induction j generalizing N with
  | zero =>
    rcases Nat.lt_or_ge N (2 ^ m) with hlt | hge
    · refine ⟨N, ?_⟩
      rw [units_of_lt hlt, pow_zero, Nat.mul_one]
    · rw [pow_succ] at hN
      refine ⟨1 * 2 ^ m + (N - 2 ^ m), ?_⟩
      rw [units_normal le_rfl (by omega), Nat.add_sub_of_le hge]
  | succ j ih =>
    rcases Nat.lt_or_ge N (2 ^ m) with hlt | hge
    · -- a short number is doubled
      obtain ⟨i, hi⟩ := ih (N := 2 * N) (by rw [pow_succ]; omega)
      refine ⟨i, ?_⟩
      rw [hi, pow_succ]
      ring
    · rw [pow_succ] at hN
      refine ⟨(j + 2) * 2 ^ m + (N - 2 ^ m), ?_⟩
      rw [units_normal (by omega) (by omega), Nat.add_sub_of_le hge]
      rfl

/-- The sum of two neighbours has two bits more than the mantissa at most. -/
theorem units_add_succ (m k : ℕ) : ∃ N j, N ≤ 2 ^ (m + 2) ∧ units m k + units m (k + 1) = N * 2 ^ j := by
  have hpow : 2 ^ (m + 2) = 4 * 2 ^ m := by ring
  have hlt : k % 2 ^ m < 2 ^ m := Nat.mod_lt k (Nat.two_pow_pos m)
  have hsplit : k = k / 2 ^ m * 2 ^ m + k % 2 ^ m := (Nat.div_add_mod' k (2 ^ m)).symm
  generalize k / 2 ^ m = e at hsplit
  generalize k % 2 ^ m = a at hsplit hlt
  subst hsplit
  have hle : a + 1 ≤ 2 ^ m := hlt
  rcases Nat.eq_zero_or_pos e with rfl | he
  · refine ⟨2 * a + 1, 0, by omega, ?_⟩
    rw [Nat.zero_mul, Nat.zero_add, units_of_lt hlt, units_of_le hle]
    ring
  · refine ⟨2 ^ m + a + (2 ^ m + (a + 1)), e - 1, by omega, ?_⟩
    rw [Nat.add_assoc (e * 2 ^ m), units_normal he hlt.le, units_normal he hle]
    ring

/-- Nearest values stay nearest when everything is scaled. -/
theorem Nearest.mul_pos {v : ℕ → ℚ} {top n : ℕ} {x c : ℚ} (h : Nearest v top x n) (hc : 0 < c) :
    Nearest (fun k => v k * c) top (x * c) n := by
  have hdist (k : ℕ) : |x * c - v k * c| = |x - v k| * c := by rw [← sub_mul, abs_mul, abs_of_pos hc]
  refine ⟨h.1, ?_⟩
  intro k hk
  obtain ⟨hle, heven⟩ := h.2 k hk
  simp only [hdist]
  refine ⟨mul_le_mul_of_nonneg_right hle hc.le, ?_⟩
  intro htie
  exact heven (mul_right_cancel₀ hc.ne' htie)

namespace Format

variable {f g : Format}

/-- The value of a magnitude, that of infinity being the next power of two. -/
theorem value_magnitude {k : ℕ} (hk : k ≤ f.infinity) : f.value k = units f.mantissa k * f.unit := by
  have hlt : k < 2 ^ (f.exponent + f.mantissa) := hk.trans_lt infinity_lt
  have hmag : f.magnitude k = k := Nat.mod_eq_of_lt hlt
  have hsign : f.sign k = 0 := by rw [sign, Nat.div_eq_of_lt hlt]
  rw [value_eq, hmag, hsign, pow_zero, one_mul]

/-- A pattern that rounds the number of a finite pattern of the same sign is this pattern. -/
theorem RoundsTo.eq_of_value (hm : 1 ≤ f.mantissa) (he : 2 ≤ f.exponent) {h h' : ℕ} (hround : f.RoundsTo (f.value h') h)
    (hsign : f.sign h = f.sign h') (hfinite : f.IsFinite h') (hlt : h < 2 ^ (f.exponent + f.mantissa + 1))
    (hlt' : h' < 2 ^ (f.exponent + f.mantissa + 1)) : h = h' := by
  have hnear := (roundsTo_iff hm he (by rw [hsign]; exact value_eq_sign_mul_abs)).mp hround
  rw [abs_value, mul_div_cancel_right₀ _ unit_pos.ne'] at hnear
  have hself : Nearest (fun k => (units f.mantissa k : ℚ)) f.infinity (units f.mantissa (f.magnitude h'))
      (f.magnitude h') := nearest_self (unitsCast_strictMono _) hfinite.le
  have hmag : f.magnitude h = f.magnitude h' := hnear.unique (unitsCast_strictMono _) hself
  -- sign and magnitude are the whole pattern
  rw [pow_succ] at hlt hlt'
  rw [sign, sign, Nat.mod_eq_of_lt (Nat.div_lt_of_lt_mul hlt), Nat.mod_eq_of_lt (Nat.div_lt_of_lt_mul hlt')] at hsign
  rw [← Nat.div_add_mod h (2 ^ (f.exponent + f.mantissa)), ← Nat.div_add_mod h' (2 ^ (f.exponent + f.mantissa)), hsign]
  exact congrArg _ hmag

/-- The coarser format's largest values are among those of the finer one, whose unit is a smaller power of two. -/
structure Refines (g f : Format) (d : ℕ) : Prop where
  mantissa : f.mantissa < g.mantissa
  unit : f.unit = g.unit * 2 ^ (d + 1)
  top : units f.mantissa f.infinity * 2 ^ (d + 1) ≤ units g.mantissa g.infinity

section

variable {d : ℕ}

/-- What is infinite in the finer format is beyond the coarser one. -/
theorem Refines.overflow_le (hfg : Refines g f d) (he : 2 ≤ f.exponent) {r : ℕ} (hr : g.IsInfinite r) :
    f.overflow ≤ |g.value r| := by
  have hr' : g.magnitude r = g.infinity := hr
  have hstep : (units f.mantissa (f.infinity - 1) : ℚ) < units f.mantissa f.infinity := by
    have hpos := f.infinity_pos he
    exact unitsCast_strictMono _ (by omega)
  have htop : (units f.mantissa f.infinity : ℚ) * 2 ^ (d + 1) ≤ units g.mantissa g.infinity := by exact_mod_cast hfg.top
  have hle : (units f.mantissa f.infinity : ℚ) ≤ |g.value r| / f.unit := by
    rw [le_div_iff₀ unit_pos, abs_value, hr', hfg.unit, mul_comm g.unit, ← mul_assoc]
    exact mul_le_mul_of_nonneg_right htop unit_pos.le
  rw [← not_lt, lt_overflow_iff he, not_lt]
  linarith

/-- The midpoint of two neighbours is a value of the finer format. -/
theorem Refines.midpoint (hfg : Refines g f d) {k : ℕ} (hk : k < f.infinity) :
    ∃ i ≤ g.infinity, 2 * ((units g.mantissa i : ℚ) * (g.unit / f.unit)) =
      units f.mantissa k + units f.mantissa (k + 1) := by
  obtain ⟨N, j, hN, hsum⟩ := units_add_succ f.mantissa k
  have hmantissa := hfg.mantissa
  obtain ⟨i, hi⟩ := exists_units (m := g.mantissa) (N := N) (j := j + d)
    (hN.trans (Nat.pow_le_pow_right (by norm_num) (by omega)))
  refine ⟨i, ?_, ?_⟩
  · rw [← (units_strictMono g.mantissa).le_iff_le, hi, pow_add, ← Nat.mul_assoc, ← hsum]
    have hlo : units f.mantissa k ≤ units f.mantissa f.infinity := (units_strictMono _).monotone hk.le
    have hhi : units f.mantissa (k + 1) ≤ units f.mantissa f.infinity := (units_strictMono _).monotone hk
    calc (units f.mantissa k + units f.mantissa (k + 1)) * 2 ^ d
        ≤ (units f.mantissa f.infinity + units f.mantissa f.infinity) * 2 ^ d := Nat.mul_le_mul_right _ (by omega)
      _ = units f.mantissa f.infinity * 2 ^ (d + 1) := by ring
      _ ≤ units g.mantissa g.infinity := hfg.top
  · have hne := (unit_pos (f := g)).ne'
    have hsum' : (units f.mantissa k : ℚ) + units f.mantissa (k + 1) = N * 2 ^ j := by exact_mod_cast hsum
    have hi' : (units g.mantissa i : ℚ) = N * 2 ^ (j + d) := by exact_mod_cast hi
    rw [hfg.unit, hsum', hi', pow_add, pow_succ]
    field_simp

/-- The value that the finer format gives is halfway between two neighbours of the coarser one, and the number lies
strictly on the side of the odd one. -/
def Misled (f : Format) (x y : ℚ) : Prop :=
  ∃ k < f.infinity, 2 * |y| = f.value k + f.value (k + 1) ∧ (|x| < |y| ∧ ¬ Even k ∨ |y| < |x| ∧ Even k)

/-- Rounding what the finer format gives is rounding the number itself, unless it is misled. -/
theorem Refines.roundsTo_iff (hfg : Refines g f d) (hm : 1 ≤ f.mantissa) (he : 2 ≤ f.exponent) (he' : 2 ≤ g.exponent)
    {x : ℚ} {r h : ℕ} (hr : g.RoundsTo x r) (hh : f.RoundsTo (g.value r) h) (hx : x = (-1) ^ g.sign r * |x|)
    (hsign : f.sign h = g.sign r) : f.RoundsTo x h ↔ ¬ f.Misled x (g.value r) := by
  have hpos : 0 < f.unit := unit_pos
  have hmantissa := hfg.mantissa
  have hc : 0 < g.unit / f.unit := div_pos unit_pos hpos
  -- both roundings in units of the coarse format
  have hnear := ((Format.roundsTo_iff (by omega) he' hx).mp hr).mul_pos hc
  have hnear' := (Format.roundsTo_iff hm he (by rw [hsign]; exact value_eq_sign_mul_abs)).mp hh
  have hvalue : |g.value r| / f.unit = units g.mantissa (g.magnitude r) * (g.unit / f.unit) := by
    rw [abs_value, mul_div_assoc]
  have hscale : |x| / g.unit * (g.unit / f.unit) = |x| / f.unit := by
    have hne := (unit_pos (f := g)).ne'
    field_simp
  rw [hscale] at hnear
  rw [hvalue] at hnear'
  rw [Format.roundsTo_iff hm he (by rw [hsign]; exact hx),
    nearest_through_iff (unitsCast_strictMono f.mantissa) hnear hnear' fun k hk => hfg.midpoint hk]
  simp only [← hvalue, div_lt_div_iff_of_pos_right hpos]
  -- half a unit of the coarse format is a value of the fine one
  have htie (k : ℕ) (hk : k < f.infinity) : 2 * (|g.value r| / f.unit) = units f.mantissa k + units f.mantissa (k + 1) ↔
      2 * |g.value r| = f.value k + f.value (k + 1) := by
    rw [value_magnitude hk.le, value_magnitude hk, ← add_mul, ← mul_div_assoc, div_eq_iff hpos.ne']
  constructor
  · rintro hall ⟨k, hk, heq, hside⟩
    obtain ⟨hbelow, habove⟩ := hall k hk ((htie k hk).mpr heq)
    rcases hside with ⟨hlt, hodd⟩ | ⟨hlt, heven⟩
    · exact hodd (hbelow hlt)
    · exact Nat.even_add_one.mp (habove hlt) heven
  · intro hnot k hk heq
    rw [htie k hk] at heq
    constructor
    · intro hlt
      by_contra hodd
      exact hnot ⟨k, hk, heq, .inl ⟨hlt, hodd⟩⟩
    · intro hlt
      rw [Nat.even_add_one]
      intro heven
      exact hnot ⟨k, hk, heq, .inr ⟨hlt, heven⟩⟩

end

end Format

end Mettle.Lib

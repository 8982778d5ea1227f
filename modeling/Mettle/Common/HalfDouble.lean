import Mettle.Common.HalfWiden

/-!
# The conversions as a whole

What the two conversions of each 16-bit format do on every pattern, and what the conversions from double precision,
which go through single precision, do.
-/

namespace Mettle.Common

open Mettle.Lib

/-! ## Fields of a result -/

section

variable {s k : ℕ}

/-- The fields of a pattern of 32 bits. -/
theorem single_fields {u : BitVec 32} (h : u.toNat = s * 2 ^ 31 + k) (hk : k < 2 ^ 31) :
    single.sign u.toNat = s ∧ single.magnitude u.toNat = k := by
  have hs : s < 2 := by omega
  rw [h]
  exact ⟨single.sign_pattern hs hk, single.magnitude_pattern hk⟩

/-- The fields of a half. -/
theorem half_fields {h : BitVec 16} (heq : h.toNat = s * 2 ^ 15 + k) (hk : k < 2 ^ 15) :
    half.sign h.toNat = s ∧ half.magnitude h.toNat = k := by
  have hs : s < 2 := by omega
  rw [heq]
  exact ⟨half.sign_pattern hs hk, half.magnitude_pattern hk⟩

/-- The fields of a bfloat. -/
theorem bfloat_fields {h : BitVec 16} (heq : h.toNat = s * 2 ^ 15 + k) (hk : k < 2 ^ 15) :
    bfloat.sign h.toNat = s ∧ bfloat.magnitude h.toNat = k := by
  have hs : s < 2 := by omega
  rw [heq]
  exact ⟨bfloat.sign_pattern hs hk, bfloat.magnitude_pattern hk⟩

end

theorem half_sign (h : BitVec 16) : half.sign h.toNat = h.toNat / 2 ^ 15 := bfloat_sign h

/-! ## The conversions between single precision and a 16-bit format -/

/-- A conversion to a 16-bit format and the one back are correct: the first rounds every finite number to the nearest,
the second is exact, both keep the sign, infinity and what is not a number, and the first undoes the second. -/
structure Correct (f : Format) (narrows : BitVec 32 → BitVec 16) (widens : BitVec 16 → BitVec 32) : Prop where
  rounds : ∀ u, single.IsFinite u.toNat → f.RoundsTo (single.value u.toNat) (narrows u).toNat
  sign : ∀ u, f.sign (narrows u).toNat = single.sign u.toNat
  infinite : ∀ u, single.IsInfinite u.toNat → f.IsInfinite (narrows u).toNat
  nan : ∀ u, single.IsNaN u.toNat → f.IsNaN (narrows u).toNat
  widens_value : ∀ h, f.IsFinite h.toNat →
    single.IsFinite (widens h).toNat ∧ single.value (widens h).toNat = f.value h.toNat
  widens_sign : ∀ h, single.sign (widens h).toNat = f.sign h.toNat
  widens_infinite : ∀ h, f.IsInfinite h.toNat → single.IsInfinite (widens h).toNat
  widens_nan : ∀ h, f.IsNaN h.toNat → single.IsNaN (widens h).toNat
  narrows_widens : ∀ h, ¬ f.IsNaN h.toNat → narrows (widens h) = h

/-- A pattern is finite, infinite or not a number. -/
theorem finite_or (f : Format) (u : ℕ) : f.IsFinite u ∨ f.IsInfinite u ∨ f.IsNaN u := lt_trichotomy _ _

section

variable {f : Format} {narrows : BitVec 32 → BitVec 16} {widens : BitVec 16 → BitVec 32}

/-- Narrowing undoes widening on finite numbers, since a number is nearest to itself. -/
theorem narrows_widens_finite (hm : 1 ≤ f.mantissa) (he : 2 ≤ f.exponent) (hbits : f.exponent + f.mantissa + 1 = 16)
    (hrounds : ∀ u : BitVec 32, single.IsFinite u.toNat → f.RoundsTo (single.value u.toNat) (narrows u).toNat ∧
      f.sign (narrows u).toNat = single.sign u.toNat) {h : BitVec 16} (hfinite : f.IsFinite h.toNat)
    (hwide : single.IsFinite (widens h).toNat) (hvalue : single.value (widens h).toNat = f.value h.toNat)
    (hsign : single.sign (widens h).toNat = f.sign h.toNat) : narrows (widens h) = h := by
  obtain ⟨hround, hsign'⟩ := hrounds _ hwide
  rw [hvalue] at hround
  apply BitVec.eq_of_toNat_eq
  apply hround.eq_of_value hm he (hsign'.trans hsign) hfinite
  · rw [hbits]
    exact (narrows (widens h)).isLt
  · rw [hbits]
    exact h.isLt

end

section

variable (h : BitVec 16)

theorem f16bitsToF32bits_sign : single.sign (f16bitsToF32bits h).toNat = half.sign h.toNat := by
  rw [half_sign]
  rcases finite_or half h.toNat with hfinite | hinf | hnan
  · obtain ⟨k, hk, hresult, -⟩ := toNat_f16bitsToF32bits_finite hfinite
    exact (single_fields hresult (hk.trans (by decide))).1
  · exact (single_fields (toNat_f16bitsToF32bits_infinite hinf) (by decide)).1
  · obtain ⟨k, -, hk, hresult⟩ := toNat_f16bitsToF32bits_nan hnan
    exact (single_fields hresult hk).1

/-- Widening keeps the value. -/
theorem f16bitsToF32bits_value (hfinite : half.IsFinite h.toNat) :
    single.IsFinite (f16bitsToF32bits h).toNat ∧ single.value (f16bitsToF32bits h).toNat = half.value h.toNat := by
  obtain ⟨k, hk, hresult, hunits⟩ := toNat_f16bitsToF32bits_finite hfinite
  have hmag := (single_fields hresult (hk.trans (by decide))).2
  have hunit : ((2 ^ 125 : ℕ) : ℚ) * single.unit = half.unit := by
    have hdiv := single_unit_half
    have hne := (Format.unit_pos (f := half)).ne'
    field_simp at hdiv
    linarith
  constructor
  · rw [Format.IsFinite, hmag]
    exact hk
  · have hunits' : units single.mantissa k = units half.mantissa (half.magnitude h.toNat) * 2 ^ 125 := hunits
    rw [Format.value_eq, Format.value_eq, f16bitsToF32bits_sign, hmag, hunits', ← hunit]
    push_cast
    ring

end

/-- Narrowing to a half keeps the sign. -/
theorem f32bitsToF16bits_sign (u : BitVec 32) : half.sign (f32bitsToF16bits u).toNat = single.sign u.toNat := by
  rcases finite_or single u.toNat with hfinite | hinf | hnan
  · exact (f32bitsToF16bits_rounds hfinite).2
  · rw [single_sign]
    exact (half_fields (toNat_f32bitsToF16bits_infinite hinf) (by decide)).1
  · obtain ⟨k, hk, hresult⟩ := toNat_f32bitsToF16bits_nan hnan
    rw [single_sign]
    exact (half_fields hresult (by omega)).1

/-- So does narrowing to a bfloat. -/
theorem f32bitsToBf16bits_sign (u : BitVec 32) : bfloat.sign (f32bitsToBf16bits u).toNat = single.sign u.toNat := by
  rcases finite_or single u.toNat with hfinite | hinf | hnan
  · exact (f32bitsToBf16bits_rounds hfinite).2
  · rw [single_sign]
    exact (bfloat_fields (toNat_f32bitsToBf16bits_infinite hinf) (by decide)).1
  · rw [single_sign]
    exact (bfloat_fields (toNat_f32bitsToBf16bits_nan hnan) (by decide)).1

/-- The infinities of the two formats with the same exponents. -/
theorem single_infinity : single.infinity = bfloat.infinity * 2 ^ 16 := by decide

/-- The conversions of halves are correct. -/
theorem half_correct : Correct half f32bitsToF16bits f16bitsToF32bits where
  rounds u hfinite := (f32bitsToF16bits_rounds hfinite).1
  sign := f32bitsToF16bits_sign
  infinite u hinf := (half_fields (toNat_f32bitsToF16bits_infinite hinf) (by decide)).2
  nan u hnan := by
    obtain ⟨k, hk, hresult⟩ := toNat_f32bitsToF16bits_nan hnan
    rw [Format.IsNaN, (half_fields hresult (by omega)).2, Nat.add_assoc]
    exact Nat.lt_add_of_pos_right (by omega)
  widens_value := f16bitsToF32bits_value
  widens_sign := f16bitsToF32bits_sign
  widens_infinite h hinf := (single_fields (toNat_f16bitsToF32bits_infinite hinf) (by decide)).2
  widens_nan h hnan := by
    obtain ⟨k, hlo, hk, hresult⟩ := toNat_f16bitsToF32bits_nan hnan
    rw [Format.IsNaN, (single_fields hresult hk).2]
    exact hlo
  narrows_widens h hnan := by
    rcases finite_or half h.toNat with hfinite | hinf | hnan'
    · obtain ⟨hwide, hvalue⟩ := f16bitsToF32bits_value h hfinite
      exact narrows_widens_finite (by decide) (by decide) rfl (fun _ => f32bitsToF16bits_rounds) hfinite hwide hvalue
        (f16bitsToF32bits_sign h)
    · have hwide := toNat_f16bitsToF32bits_infinite hinf
      obtain ⟨hsign, hmag⟩ := single_fields hwide (by decide)
      apply BitVec.eq_of_toNat_eq
      rw [toNat_f32bitsToF16bits_infinite hmag, ← single_sign, hsign, ← show h.toNat % 2 ^ 15 = 31 * 2 ^ 10 from hinf]
      exact Nat.div_add_mod' _ _
    · exact absurd hnan' hnan

/-- So are those of bfloats. -/
theorem bfloat_correct : Correct bfloat f32bitsToBf16bits bf16bitsToF32bits where
  rounds u hfinite := (f32bitsToBf16bits_rounds hfinite).1
  sign := f32bitsToBf16bits_sign
  infinite u hinf := (bfloat_fields (toNat_f32bitsToBf16bits_infinite hinf) (by decide)).2
  nan u hnan := by
    rw [Format.IsNaN, (bfloat_fields (toNat_f32bitsToBf16bits_nan hnan) (by decide)).2]
    decide
  widens_value h hfinite := by
    refine ⟨?_, bf16bitsToF32bits_value h⟩
    rw [Format.IsFinite, (bf16bitsToF32bits_fields h).2, single_infinity]
    exact Nat.mul_lt_mul_of_pos_right hfinite (Nat.two_pow_pos 16)
  widens_sign h := (bf16bitsToF32bits_fields h).1
  widens_infinite h hinf := by
    rw [Format.IsInfinite, (bf16bitsToF32bits_fields h).2, show bfloat.magnitude h.toNat = _ from hinf]
    rfl
  widens_nan h hnan := by
    rw [Format.IsNaN, (bf16bitsToF32bits_fields h).2, single_infinity]
    exact Nat.mul_lt_mul_of_pos_right hnan (Nat.two_pow_pos 16)
  narrows_widens h hnan := by
    rcases finite_or bfloat h.toNat with hfinite | hinf | hnan'
    · apply narrows_widens_finite (by decide) (by decide) rfl (fun _ => f32bitsToBf16bits_rounds) hfinite ?_
        (bf16bitsToF32bits_value h) (bf16bitsToF32bits_fields h).1
      rw [Format.IsFinite, (bf16bitsToF32bits_fields h).2, single_infinity]
      exact Nat.mul_lt_mul_of_pos_right hfinite (Nat.two_pow_pos 16)
    · have hwide : (bf16bitsToF32bits h).toNat % 2 ^ 31 = 255 * 2 ^ 23 := by
        have hmag := (bf16bitsToF32bits_fields h).2
        rw [show bfloat.magnitude h.toNat = _ from hinf] at hmag
        exact hmag
      have hsign := (bf16bitsToF32bits_fields h).1
      apply BitVec.eq_of_toNat_eq
      rw [toNat_f32bitsToBf16bits_infinite hwide, ← single_sign, hsign, bfloat_sign,
        ← show h.toNat % 2 ^ 15 = 255 * 2 ^ 7 from hinf]
      exact Nat.div_add_mod' _ _
    · exact absurd hnan' hnan

/-! ## The conversions from double precision -/

theorem double_sign (u : BitVec 64) : double.sign u.toNat = u.toNat / 2 ^ 63 := by
  show u.toNat / 2 ^ 63 % 2 = _
  omega

theorem double_sign_lt (u : BitVec 64) : u.toNat / 2 ^ 63 < 2 := by
  omega

section

variable {u : BitVec 64}

/-- Sign and magnitude of a result of the conversion to single precision. -/
theorem f64bitsToF32bits_fields {k : ℕ} (h : f64bitsToF32bits u = BitVec.ofNat 32 (u.toNat / 2 ^ 63 * 2 ^ 31 + k))
    (hk : k < 2 ^ 31) : (f64bitsToF32bits u).toNat = single.pattern (double.sign u.toNat) k ∧
      single.sign (f64bitsToF32bits u).toNat = double.sign u.toNat ∧ single.magnitude (f64bitsToF32bits u).toNat = k := by
  have hs := double_sign_lt u
  have hvalue : (f64bitsToF32bits u).toNat = u.toNat / 2 ^ 63 * 2 ^ 31 + k := by
    rw [h, BitVec.toNat_ofNat]
    generalize u.toNat / 2 ^ 63 = s at hs ⊢
    omega
  obtain ⟨hsign, hmag⟩ := single_fields hvalue hk
  rw [double_sign]
  exact ⟨hvalue, hsign, hmag⟩

/-- An infinite double becomes an infinite float of its sign. -/
theorem f64bitsToF32bits_infinite (hinf : double.IsInfinite u.toNat) :
    single.sign (f64bitsToF32bits u).toNat = double.sign u.toNat ∧ single.IsInfinite (f64bitsToF32bits u).toNat := by
  have hmag : u.toNat % 2 ^ 63 = 2047 * 2 ^ 52 := hinf
  have hresult : f64bitsToF32bits u = BitVec.ofNat 32 (u.toNat / 2 ^ 63 * 2 ^ 31 + 255 * 2 ^ 23) := by
    rw [f64bitsToF32bits, hmag]
    simp only [lt_irrefl, if_false, if_true]
  exact (f64bitsToF32bits_fields hresult (by decide)).2

/-- A double that is no number becomes a float that is none. -/
theorem f64bitsToF32bits_nan (hnan : double.IsNaN u.toNat) :
    single.sign (f64bitsToF32bits u).toNat = double.sign u.toNat ∧ single.IsNaN (f64bitsToF32bits u).toNat := by
  have hmag : 2047 * 2 ^ 52 < u.toNat % 2 ^ 63 := hnan
  have hresult : f64bitsToF32bits u = BitVec.ofNat 32 (u.toNat / 2 ^ 63 * 2 ^ 31 +
      (255 * 2 ^ 23 + 2 ^ 22 + u.toNat % 2 ^ 63 % 2 ^ 52 / 2 ^ 29 % 2 ^ 22)) := by
    rw [f64bitsToF32bits]
    simp only [if_neg hmag.not_gt, if_neg hmag.ne']
  have hlow : u.toNat % 2 ^ 63 % 2 ^ 52 / 2 ^ 29 % 2 ^ 22 < 2 ^ 22 := Nat.mod_lt _ (Nat.two_pow_pos 22)
  generalize u.toNat % 2 ^ 63 % 2 ^ 52 / 2 ^ 29 % 2 ^ 22 = low at hresult hlow
  have hbound : 255 * 2 ^ 23 + 2 ^ 22 + low < 2 ^ 31 := by omega
  obtain ⟨-, hsign, hk⟩ := f64bitsToF32bits_fields hresult hbound
  refine ⟨hsign, ?_⟩
  rw [Format.IsNaN, hk, Nat.add_assoc]
  exact Nat.lt_add_of_pos_right (Nat.lt_of_lt_of_le (Nat.two_pow_pos 22) (Nat.le_add_right _ _))

/-- A finite double is rounded to the nearest `float`. -/
theorem f64bitsToF32bits_rounds (hfinite : double.IsFinite u.toNat) :
    single.RoundsTo (double.value u.toNat) (f64bitsToF32bits u).toNat ∧
      single.sign (f64bitsToF32bits u).toNat = double.sign u.toNat := by
  have hmag : u.toNat % 2 ^ 63 < 2047 * 2 ^ 52 := hfinite
  have hnear := @narrow_nearest 52 23 896 255 (double.magnitude u.toNat)
    (by norm_num) (by norm_num) (by norm_num) (by norm_num)
  have hx : |double.value u.toNat| / single.unit =
      (units 52 (double.magnitude u.toNat) : ℚ) / (2 ^ (896 + 52 - 23) : ℕ) := by
    rw [Format.abs_value, mul_div_assoc, double_unit_single, mul_one_div,
      show 896 + 52 - 23 = 925 from rfl]
    rfl
  rw [← hx] at hnear
  have hresult : f64bitsToF32bits u = BitVec.ofNat 32 (u.toNat / 2 ^ 63 * 2 ^ 31 +
      narrow 52 23 896 (255 * 2 ^ 23) (double.magnitude u.toNat)) := by
    exact if_pos hmag
  obtain ⟨hpattern, hsign, -⟩ := f64bitsToF32bits_fields hresult (hnear.1.trans_lt (by decide))
  refine ⟨?_, hsign⟩
  rw [hpattern]
  exact Format.roundsTo_pattern (by decide) (by decide) (double.sign_lt_two _) Format.value_eq_sign_mul_abs hnear

end

/-- The sign is kept in every case. -/
theorem f64bitsToF32bits_sign (u : BitVec 64) : single.sign (f64bitsToF32bits u).toNat = double.sign u.toNat := by
  rcases finite_or double u.toNat with hfinite | hinf | hnan
  · exact (f64bitsToF32bits_rounds hfinite).2
  · exact (f64bitsToF32bits_infinite hinf).1
  · exact (f64bitsToF32bits_nan hnan).1

theorem single_refines_half : single.Refines half 124 where
  mantissa := by decide
  unit := by
    have hdiv := single_unit_half
    have hne := (Format.unit_pos (f := half)).ne'
    field_simp at hdiv
    rw [← hdiv]
    rfl
  top := by decide

theorem single_refines_bfloat : single.Refines bfloat 15 where
  mantissa := by decide
  unit := by
    have hdiv := single_unit_bfloat
    have hne := (Format.unit_pos (f := bfloat)).ne'
    field_simp at hdiv
    rw [← hdiv]
    rfl
  top := by decide

/-- A conversion from double precision rounds to the nearest `float` and that to the format. The result is the double's
own rounding just when the `float` does not mislead: when it is not halfway between two values of the format with the
double strictly on the odd one's side. -/
structure CorrectThroughSingle (f : Format) (converts : BitVec 64 → BitVec 16) : Prop where
  through : ∀ u, double.IsFinite u.toNat → ∃ r : BitVec 32, single.RoundsTo (double.value u.toNat) r.toNat ∧
    (single.IsFinite r.toNat → f.RoundsTo (single.value r.toNat) (converts u).toNat) ∧
    (single.IsInfinite r.toNat → f.IsInfinite (converts u).toNat) ∧
    (f.RoundsTo (double.value u.toNat) (converts u).toNat ↔ ¬ f.Misled (double.value u.toNat) (single.value r.toNat))
  sign : ∀ u, f.sign (converts u).toNat = double.sign u.toNat
  infinite : ∀ u, double.IsInfinite u.toNat → f.IsInfinite (converts u).toNat
  nan : ∀ u, double.IsNaN u.toNat → f.IsNaN (converts u).toNat

/-- What is correct for `float` is correct through it. -/
theorem Correct.throughSingle {f : Format} {narrows : BitVec 32 → BitVec 16} {widens : BitVec 16 → BitVec 32} {d : ℕ}
    (hcorrect : Correct f narrows widens) (hfg : single.Refines f d) (hm : 1 ≤ f.mantissa) (he : 2 ≤ f.exponent) :
    CorrectThroughSingle f fun u => narrows (f64bitsToF32bits u) where
  through u hfinite := by
    obtain ⟨hrounds, hsign⟩ := f64bitsToF32bits_rounds hfinite
    refine ⟨f64bitsToF32bits u, hrounds, hcorrect.rounds _, hcorrect.infinite _, ?_⟩
    have hnarrow : f.RoundsTo (single.value (f64bitsToF32bits u).toNat) (narrows (f64bitsToF32bits u)).toNat := by
      rcases finite_or single (f64bitsToF32bits u).toNat with hr | hr | hr
      · exact hcorrect.rounds _ hr
      · exact ⟨fun hlt => absurd (hfg.overflow_le he hr) hlt.not_ge, fun _ => hcorrect.infinite _ hr⟩
      · -- a number is not rounded to what is not a number
        rcases lt_or_ge |double.value u.toNat| single.overflow with hlt | hge
        · exact absurd hr (lt_asymm (hrounds.finite hlt).1)
        · exact absurd (hrounds.infinite hge) hr.ne'
    apply hfg.roundsTo_iff hm he (by decide) hrounds hnarrow
    · rw [hsign]
      exact Format.value_eq_sign_mul_abs
    · exact hcorrect.sign _
  sign u := (hcorrect.sign _).trans (f64bitsToF32bits_sign u)
  infinite u hinf := hcorrect.infinite _ (f64bitsToF32bits_infinite hinf).2
  nan u hnan := hcorrect.nan _ (f64bitsToF32bits_nan hnan).2

/-- All four conversions are correct: those from floats round once, those from doubles once to a float and once from
there. -/
theorem conversions_correct : Correct half f32bitsToF16bits f16bitsToF32bits ∧
    Correct bfloat f32bitsToBf16bits bf16bitsToF32bits ∧ CorrectThroughSingle half f64bitsToF16bits ∧
    CorrectThroughSingle bfloat f64bitsToBf16bits :=
  ⟨half_correct, bfloat_correct, half_correct.throughSingle single_refines_half (by decide) (by decide),
    bfloat_correct.throughSingle single_refines_bfloat (by decide) (by decide)⟩

/-- A number a little above the midpoint of `1` and the next half. The nearest `float` is the midpoint, and of that the
nearest half is `1`. -/
theorem f64bitsToF16bits_misled : ¬ ∀ u : BitVec 64, double.IsFinite u.toNat →
    half.RoundsTo (double.value u.toNat) (f64bitsToF16bits u).toNat := by
  intro hall
  have hround := hall 0x3FF0020000001000#64 (by decide)
  have hvalue : double.value (0x3FF0020000001000#64).toNat = 1 + 1 / 2 ^ 11 + 1 / 2 ^ 40 := by
    simp only [Format.value, Format.magnitude, Format.sign, Format.bias, double]
    norm_num
  have hresult : (f64bitsToF16bits 0x3FF0020000001000#64).toNat = 0x3C00 := by decide
  have hlow : half.value 0x3C00 = 1 := by
    simp only [Format.value, Format.magnitude, Format.sign, Format.bias, half]
    norm_num
  have hhigh : half.value 0x3C01 = 1 + 1 / 2 ^ 10 := by
    simp only [Format.value, Format.magnitude, Format.sign, Format.bias, half]
    norm_num
  have hoverflow : |(1 + 1 / 2 ^ 11 + 1 / 2 ^ 40 : ℚ)| < half.overflow := by
    simp only [Format.overflow, Format.bias, half]
    norm_num
  rw [hresult, hvalue] at hround
  have hle := ((hround.finite hoverflow).2 0x3C01 (by decide)).1
  rw [hlow, hhigh] at hle
  norm_num [abs_of_pos, abs_of_neg] at hle

end Mettle.Common

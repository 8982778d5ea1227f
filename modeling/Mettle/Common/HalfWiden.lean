import Mettle.Common.HalfSound

/-!
# Widening, infinities and NaN

Widening keeps the value, and narrowing what was widened gives the pattern back. Infinities and patterns that are not
numbers stay what they are in both directions.
-/

namespace Mettle.Common

open Mettle.Lib BitVec

/-! ## Narrowing infinities and NaN -/

/-- What is not finite has the highest exponent. -/
theorem exp_of_not_finite {u : BitVec 32} (h : 255 * 2 ^ 23 ≤ u.toNat % 2 ^ 31) : (u >>> 23) &&& 0xFF#32 = 255#32 := by
  apply eq_of_toNat_eq
  rw [toNat_exp]
  show _ = 255
  omega

/-- It is infinite when its mantissa is zero. -/
theorem mant_eq_zero_iff {u : BitVec 32} (h : 255 * 2 ^ 23 ≤ u.toNat % 2 ^ 31) :
    u &&& 0x7FFFFF#32 = 0#32 ↔ u.toNat % 2 ^ 31 = 255 * 2 ^ 23 := by
  rw [← toNat_inj, toNat_mant]
  show u.toNat % 2 ^ 31 % 2 ^ 23 = 0 ↔ _
  omega

section

variable {u : BitVec 32}

/-- An infinite float becomes an infinite half. -/
theorem toNat_f32bitsToF16bits_infinite (h : u.toNat % 2 ^ 31 = 255 * 2 ^ 23) :
    (f32bitsToF16bits u).toNat = u.toNat / 2 ^ 31 * 2 ^ 15 + 31 * 2 ^ 10 := by
  rw [f32bitsToF16bits, if_pos (exp_of_not_finite h.ge), if_pos ((mant_eq_zero_iff h.ge).mpr h)]
  exact toNat_pack (by omega) (toNat_sign u) (by decide)

/-- A float that is no number becomes a half that is none, and quiet. -/
theorem toNat_f32bitsToF16bits_nan (h : 255 * 2 ^ 23 < u.toNat % 2 ^ 31) :
    ∃ k < 2 ^ 9, (f32bitsToF16bits u).toNat = u.toNat / 2 ^ 31 * 2 ^ 15 + (31 * 2 ^ 10 + 2 ^ 9 + k) := by
  have hne : ¬ u &&& 0x7FFFFF#32 = 0#32 := by
    rw [mant_eq_zero_iff h.le]
    exact h.ne'
  generalize hlow : ((u &&& 0x7FFFFF#32) >>> 13) &&& 0x01FF#32 = low
  have hlowlt : low.toNat < 2 ^ 9 := by
    rw [← hlow, toNat_and_mask (k := 9) rfl]
    exact Nat.mod_lt _ (by norm_num)
  have hquiet : (0x7E00#32 ||| low).toNat = 31 * 2 ^ 10 + 2 ^ 9 + low.toNat :=
    toNat_or_of_lt (s := 63) (k := 9) rfl hlowlt
  refine ⟨low.toNat, hlowlt, ?_⟩
  rw [f32bitsToF16bits, if_pos (exp_of_not_finite h.le), if_neg hne, hlow, BitVec.or_assoc,
    toNat_pack (by omega) (toNat_sign u) (by rw [hquiet]; omega), hquiet]

/-- An infinite float becomes an infinite bfloat. -/
theorem toNat_f32bitsToBf16bits_infinite (h : u.toNat % 2 ^ 31 = 255 * 2 ^ 23) :
    (f32bitsToBf16bits u).toNat = u.toNat / 2 ^ 31 * 2 ^ 15 + 255 * 2 ^ 7 := by
  rw [f32bitsToBf16bits, if_pos (exp_of_not_finite h.ge), if_pos ((mant_eq_zero_iff h.ge).mpr h), toNat_setWidth,
    toNat_shiftRight]
  omega

/-- Clearing the low bits. -/
theorem toNat_and_high {w j k : ℕ} {a b : BitVec w} (hb : b.toNat = (2 ^ j - 1) * 2 ^ k) (ha : a.toNat < 2 ^ j * 2 ^ k) :
    (a &&& b).toNat = a.toNat / 2 ^ k * 2 ^ k := by
  have hdiv : b.toNat / 2 ^ k = 2 ^ j - 1 := by rw [hb, Nat.mul_div_cancel _ (Nat.two_pow_pos k)]
  have hmod : b.toNat % 2 ^ k = 0 := by rw [hb, Nat.mul_mod_left]
  have hlt : a.toNat / 2 ^ k < 2 ^ j := by
    rw [Nat.div_lt_iff_lt_mul (Nat.two_pow_pos k)]
    exact ha
  rw [toNat_and, ← Nat.div_add_mod' (a.toNat &&& b.toNat) (2 ^ k), Nat.and_div_two_pow, Nat.and_mod_two_pow, hdiv,
    hmod, Nat.and_two_pow_sub_one_eq_mod, Nat.and_zero, Nat.mod_eq_of_lt hlt, Nat.add_zero]

/-- A float that is no number becomes the same quiet bfloat. -/
theorem toNat_f32bitsToBf16bits_nan (h : 255 * 2 ^ 23 < u.toNat % 2 ^ 31) :
    (f32bitsToBf16bits u).toNat = u.toNat / 2 ^ 31 * 2 ^ 15 + (255 * 2 ^ 7 + 2 ^ 6) := by
  have hne : ¬ u &&& 0x7FFFFF#32 = 0#32 := by
    rw [mant_eq_zero_iff h.le]
    exact h.ne'
  have hhigh : (u >>> 16 &&& 0xFF80#32).toNat = (u.toNat / 2 ^ 31 * 2 ^ 8 + 255) * 2 ^ 7 := by
    rw [toNat_and_high (j := 9) (k := 7) rfl]
    · rw [toNat_shiftRight]
      omega
    · rw [toNat_shiftRight]
      omega
  have hquiet : (u >>> 16 &&& 0xFF80#32 ||| 0x0040#32).toNat = (u.toNat / 2 ^ 31 * 2 ^ 8 + 255) * 2 ^ 7 + 2 ^ 6 :=
    toNat_or_of_lt hhigh (by decide)
  -- the sign is already there
  have hsame : (u >>> 16 &&& 0xFF80#32 ||| 0x0040#32) ||| (u >>> 16 &&& 0x8000#32) = u >>> 16 &&& 0xFF80#32 ||| 0x0040#32 := by
    have habsorb : (u >>> 16 &&& 0xFF80#32) ||| (u >>> 16 &&& 0x8000#32) = u >>> 16 &&& 0xFF80#32 := by
      rw [← and_or_distrib_left]
      rfl
    rw [BitVec.or_assoc, BitVec.or_comm 0x0040#32, ← BitVec.or_assoc, habsorb]
  rw [f32bitsToBf16bits, if_pos (exp_of_not_finite h.le), if_neg hne, hsame, toNat_setWidth, hquiet]
  omega

end

/-! ## Widening -/

/-- Widening a bfloat appends zeros. -/
theorem toNat_bf16bitsToF32bits (h : BitVec 16) : (bf16bitsToF32bits h).toNat = h.toNat * 2 ^ 16 := by
  have hwide : (h.setWidth 32).toNat = h.toNat := by
    rw [toNat_setWidth]
    omega
  rw [bf16bitsToF32bits, toNat_shiftLeft (by rw [hwide]; omega), hwide]

theorem bfloat_sign (h : BitVec 16) : bfloat.sign h.toNat = h.toNat / 2 ^ 15 := by
  show h.toNat / 2 ^ 15 % 2 = _
  omega

/-- Sign and magnitude of a widened pattern. -/
theorem bf16bitsToF32bits_fields (h : BitVec 16) :
    single.sign (bf16bitsToF32bits h).toNat = bfloat.sign h.toNat ∧
      single.magnitude (bf16bitsToF32bits h).toNat = bfloat.magnitude h.toNat * 2 ^ 16 := by
  rw [toNat_bf16bitsToF32bits]
  constructor
  · show h.toNat * 2 ^ 16 / 2 ^ 31 % 2 = h.toNat / 2 ^ 15 % 2
    omega
  · show h.toNat * 2 ^ 16 % 2 ^ 31 = h.toNat % 2 ^ 15 * 2 ^ 16
    omega

/-- So it keeps the value. -/
theorem bf16bitsToF32bits_value (h : BitVec 16) : single.value (bf16bitsToF32bits h).toNat = bfloat.value h.toNat := by
  obtain ⟨hsign, hmagnitude⟩ := bf16bitsToF32bits_fields h
  have hunit : ((2 ^ 16 : ℕ) : ℚ) * single.unit = bfloat.unit := by
    have hdiv := single_unit_bfloat
    have hne := (Format.unit_pos (f := bfloat)).ne'
    field_simp at hdiv
    linarith
  rw [Format.value_eq, Format.value_eq, hsign, hmagnitude, show single.mantissa = 7 + 16 from rfl, units_mul_two_pow,
    ← hunit]
  push_cast
  show _ * ((units 7 _ : ℚ) * _ * _) = _ * ((units 7 _ : ℚ) * _)
  ring

/-! The loop that shifts a subnormal mantissa. -/

/-- The loop ends with the hidden bit in place, having lowered the exponent once for each shift. -/
theorem normalizeHalf_spec {fuel : ℕ} {m : BitVec 32} {e : ℤ} (hlt : m.toNat < 2 ^ 11)
    (hge : 2 ^ 10 ≤ m.toNat * 2 ^ fuel) :
    ∃ i ≤ fuel, (normalizeHalf fuel m e).1.toNat = m.toNat * 2 ^ i ∧ (normalizeHalf fuel m e).2 = e - i ∧
      2 ^ 10 ≤ m.toNat * 2 ^ i ∧ m.toNat * 2 ^ i < 2 ^ 11 := by
  -- on the fuel; one shift for each leading zero of the fraction
  induction fuel generalizing m e with
  | zero =>
    refine ⟨0, le_rfl, ?_, ?_, hge, ?_⟩
    · rw [normalizeHalf, pow_zero, Nat.mul_one]
    · rw [normalizeHalf, Nat.cast_zero, sub_zero]
    · rw [pow_zero, Nat.mul_one]
      exact hlt
  | succ fuel ih =>
    have hbit : m &&& 0x400#32 = 0#32 ↔ m.toNat < 2 ^ 10 := by
      rw [← toNat_inj, toNat_and_bit (k := 10) rfl (by omega)]
      show m.toNat / 2 ^ 10 * 2 ^ 10 = 0 ↔ _
      omega
    rw [normalizeHalf]
    by_cases hsmall : m.toNat < 2 ^ 10
    · rw [if_pos (hbit.mpr hsmall)]
      have hshift : (m <<< 1).toNat = m.toNat * 2 ^ 1 := toNat_shiftLeft (by omega)
      obtain ⟨i, hi, hm, he, hlo, hhi⟩ := ih (m := m <<< 1) (e := e - 1) (by omega) (by
        rw [hshift, Nat.mul_assoc, ← pow_add, Nat.add_comm]
        exact hge)
      rw [hshift, Nat.mul_assoc, ← pow_add, Nat.add_comm] at hm hlo hhi
      refine ⟨i + 1, by omega, hm, ?_, hlo, hhi⟩
      rw [he]
      push_cast
      ring
    · rw [if_neg (fun hzero => hsmall (hbit.mp hzero))]
      refine ⟨0, Nat.zero_le _, ?_, ?_, ?_, ?_⟩
      · rw [pow_zero, Nat.mul_one]
      · rw [Nat.cast_zero, sub_zero]
      · rw [pow_zero, Nat.mul_one]
        exact Nat.not_lt.mp hsmall
      · rw [pow_zero, Nat.mul_one]
        exact hlt

/-- A sign, an exponent and a mantissa packed into a pattern of single precision. -/
theorem toNat_pack32 {sign exp mant : BitVec 32} {s : ℕ} (hs : sign.toNat = s * 2 ^ 31) (hexp : exp.toNat < 2 ^ 8)
    (hmant : mant.toNat < 2 ^ 10) :
    (sign ||| (exp <<< 23) ||| (mant <<< 13)).toNat = s * 2 ^ 31 + (exp.toNat * 2 ^ 23 + mant.toNat * 2 ^ 13) := by
  have hexpShift : (exp <<< 23).toNat = exp.toNat * 2 ^ 23 := toNat_shiftLeft (by omega)
  have hmantShift : (mant <<< 13).toNat = mant.toNat * 2 ^ 13 := toNat_shiftLeft (by omega)
  have hlow : (exp <<< 23 ||| mant <<< 13).toNat = exp.toNat * 2 ^ 23 + mant.toNat * 2 ^ 13 := by
    rw [toNat_or_of_lt hexpShift (by omega), hmantShift]
  rw [BitVec.or_assoc, toNat_or_of_lt hs (by omega), hlow]

section

variable {h : BitVec 16}

theorem toNat_setWidth32 (h : BitVec 16) : (h.setWidth 32).toNat = h.toNat := by
  rw [toNat_setWidth]
  omega

/-- The sign, at its place in a float. -/
theorem toNat_half_sign (h : BitVec 16) : ((h.setWidth 32 &&& 0x8000#32) <<< 16).toNat = h.toNat / 2 ^ 15 * 2 ^ 31 := by
  have hbit : (h.setWidth 32 &&& 0x8000#32).toNat = h.toNat / 2 ^ 15 * 2 ^ 15 := by
    rw [toNat_and_bit (k := 15) rfl, toNat_setWidth32]
    rw [toNat_setWidth32]
    omega
  rw [toNat_shiftLeft (by rw [hbit]; omega), hbit, Nat.mul_assoc, ← pow_add]

/-- The exponent of a half. -/
theorem toNat_half_exp (h : BitVec 16) : ((h.setWidth 32 >>> 10) &&& 0x1F#32).toNat = h.toNat % 2 ^ 15 / 2 ^ 10 := by
  rw [toNat_and_mask (k := 5) rfl, toNat_shiftRight, toNat_setWidth32]
  omega

theorem toNat_half_mant (h : BitVec 16) : (h.setWidth 32 &&& 0x3FF#32).toNat = h.toNat % 2 ^ 15 % 2 ^ 10 := by
  rw [toNat_and_mask (k := 10) rfl, toNat_setWidth32]
  omega

/-- A finite number is widened to a finite one that is as many units of half precision. -/
theorem toNat_f16bitsToF32bits_finite (hfinite : h.toNat % 2 ^ 15 < 31 * 2 ^ 10) :
    ∃ k < 255 * 2 ^ 23, (f16bitsToF32bits h).toNat = h.toNat / 2 ^ 15 * 2 ^ 31 + k ∧
      units 23 k = units 10 (h.toNat % 2 ^ 15) * 2 ^ 125 := by
  have hsign := toNat_half_sign h
  have hexp := toNat_half_exp h
  have hmant := toNat_half_mant h
  rw [f16bitsToF32bits]
  -- sign, exponent and fraction as numbers of their own, so that the rest is arithmetic
  generalize (h.setWidth 32 &&& 0x8000#32) <<< 16 = sign at hsign ⊢
  generalize (h.setWidth 32 >>> 10) &&& 0x1F#32 = exp at hexp ⊢
  generalize h.setWidth 32 &&& 0x3FF#32 = mant at hmant ⊢
  generalize h.toNat / 2 ^ 15 = s at hsign ⊢
  generalize h.toNat % 2 ^ 15 = n at hfinite hexp hmant ⊢
  have hmantlt : mant.toNat < 2 ^ 10 := by omega
  have hn : n = exp.toNat * 2 ^ 10 + mant.toNat := by omega
  have hne : exp ≠ 31#32 := by
    rintro rfl
    have h31 : (31#32).toNat = 31 := by decide
    omega
  by_cases hzero : exp = 0#32
  · have hexpZero : exp.toNat = 0 := by rw [hzero]; rfl
    have hnmant : n = mant.toNat := by omega
    rw [if_pos hzero]
    by_cases hmantZero : mant = 0#32
    · have hnzero : n = 0 := by rw [hnmant, hmantZero]; rfl
      rw [if_pos hmantZero, hnzero]
      refine ⟨0, by decide, by rw [hsign, Nat.add_zero], ?_⟩
      rw [units_of_lt (Nat.two_pow_pos 23), units_of_lt (Nat.two_pow_pos 10), Nat.zero_mul]
    · -- a subnormal number
      have hpos : 0 < mant.toNat := Nat.pos_of_ne_zero fun hz => hmantZero (eq_of_toNat_eq hz)
      obtain ⟨i, hi, hm, he, hlo, hhi⟩ := @normalizeHalf_spec 10 mant (-14) (by omega) (by omega)
      rw [if_neg hmantZero]
      generalize normalizeHalf 10 mant (-14) = normalized at hm he ⊢
      obtain ⟨m, e⟩ := normalized
      simp only at hm he ⊢
      have hmask : (m &&& 0x3FF#32).toNat = mant.toNat * 2 ^ i - 2 ^ 10 := by
        rw [toNat_and_mask (k := 10) rfl, hm]
        omega
      have hexponent : (BitVec.ofInt 32 (e + 127)).toNat = 113 - i := by
        rw [he, show (-14 - (i : ℤ) + 127) = ((113 - i : ℕ) : ℤ) by omega, ofInt_natCast, toNat_ofNat]
        omega
      have hbound : (113 - i) * 2 ^ 23 + (mant.toNat * 2 ^ i - 2 ^ 10) * 2 ^ 13 < 2139095040 := by omega
      refine ⟨(113 - i) * 2 ^ 23 + (mant.toNat * 2 ^ i - 2 ^ 10) * 2 ^ 13, hbound, ?_, ?_⟩
      · rw [toNat_pack32 hsign (by rw [hexponent]; omega) (by rw [hmask]; omega), hexponent, hmask]
      · rw [units_normal (by omega) (by omega), hnmant, units_of_lt hmantlt]
        have hfull : 2 ^ 23 + (mant.toNat * 2 ^ i - 2 ^ 10) * 2 ^ 13 = mant.toNat * 2 ^ i * 2 ^ 13 := by omega
        have hexponents : i + (13 + (113 - i - 1)) = 125 := by omega
        rw [hfull, Nat.mul_assoc, Nat.mul_assoc, ← pow_add, ← pow_add, hexponents]
  -- a normal number: the exponent is rebased from 15 to 127, the fraction gets thirteen zeros
  · have hexpPos : exp.toNat ≠ 0 := fun hz => hzero (eq_of_toNat_eq hz)
    have hsum : (exp + 112#32).toNat = exp.toNat + 112 := by
      show (exp.toNat + 112) % 2 ^ 32 = _
      omega
    rw [if_neg hzero, if_neg hne]
    have hbound : (exp.toNat + 112) * 2 ^ 23 + mant.toNat * 2 ^ 13 < 2139095040 := by omega
    refine ⟨(exp.toNat + 112) * 2 ^ 23 + mant.toNat * 2 ^ 13, hbound, ?_, ?_⟩
    · rw [toNat_pack32 hsign (by rw [hsum]; omega) hmantlt, hsum]
    · rw [hn, units_normal (by omega) hmantlt.le, units_normal (by omega) (by omega)]
      obtain ⟨d, hd⟩ : ∃ d, exp.toNat = d + 1 := ⟨exp.toNat - 1, by omega⟩
      have hfull : 2 ^ 23 + mant.toNat * 2 ^ 13 = (2 ^ 10 + mant.toNat) * 2 ^ 13 := by ring
      have hexponent : 13 + (d + 1 + 112 - 1) = d + 1 - 1 + 125 := by omega
      rw [hd, hfull, Nat.mul_assoc, Nat.mul_assoc, ← pow_add, ← pow_add, hexponent]

/-- An infinite half becomes an infinite float. -/
theorem toNat_f16bitsToF32bits_infinite (hinf : h.toNat % 2 ^ 15 = 31 * 2 ^ 10) :
    (f16bitsToF32bits h).toNat = h.toNat / 2 ^ 15 * 2 ^ 31 + 255 * 2 ^ 23 := by
  have hexp : (h.setWidth 32 >>> 10) &&& 0x1F#32 = 31#32 := by
    apply eq_of_toNat_eq
    rw [toNat_half_exp, hinf]
    rfl
  have hmant : h.setWidth 32 &&& 0x3FF#32 = 0#32 := by
    apply eq_of_toNat_eq
    rw [toNat_half_mant, hinf]
    rfl
  rw [f16bitsToF32bits, hexp, hmant, if_neg (by decide), if_pos rfl, if_pos rfl,
    toNat_or_of_lt (toNat_half_sign h) (by decide)]
  rfl

/-- A half that is no number becomes a float that is none. -/
theorem toNat_f16bitsToF32bits_nan (hnan : 31 * 2 ^ 10 < h.toNat % 2 ^ 15) :
    ∃ k, 255 * 2 ^ 23 < k ∧ k < 2 ^ 31 ∧ (f16bitsToF32bits h).toNat = h.toNat / 2 ^ 15 * 2 ^ 31 + k := by
  have hexp : (h.setWidth 32 >>> 10) &&& 0x1F#32 = 31#32 := by
    apply eq_of_toNat_eq
    rw [toNat_half_exp]
    show _ = 31
    omega
  have hlarge : 31744 < h.toNat % 2 ^ 15 := hnan
  clear hnan
  have hmant := toNat_half_mant h
  rw [f16bitsToF32bits, hexp]
  generalize h.setWidth 32 &&& 0x3FF#32 = mant at hmant ⊢
  have hne : mant ≠ 0#32 := by
    rintro rfl
    have hzero : (0#32).toNat = 0 := rfl
    omega
  have hshift : (mant <<< 13).toNat = mant.toNat * 2 ^ 13 := toNat_shiftLeft (by omega)
  have hlow : (0x400000#32 ||| mant <<< 13).toNat < 2 ^ 23 := by
    apply Nat.or_lt_two_pow (by decide)
    omega
  have hlow' : 2 ^ 22 ≤ (0x400000#32 ||| mant <<< 13).toNat := by
    exact Nat.left_le_or
  have hquiet : (0x7FC00000#32 ||| mant <<< 13).toNat = 255 * 2 ^ 23 + (0x400000#32 ||| mant <<< 13).toNat := by
    have hsplit : 0x7FC00000#32 ||| mant <<< 13 = 0x7F800000#32 ||| (0x400000#32 ||| mant <<< 13) := by
      rw [← BitVec.or_assoc]
      rfl
    rw [hsplit]
    exact toNat_or_of_lt rfl hlow
  have hbound : (0x7FC00000#32 ||| mant <<< 13).toNat < 2 ^ 31 := by omega
  have hnan : 255 * 2 ^ 23 < (0x7FC00000#32 ||| mant <<< 13).toNat := by omega
  refine ⟨(0x7FC00000#32 ||| mant <<< 13).toNat, hnan, hbound, ?_⟩
  rw [if_neg (by decide), if_pos rfl, if_neg hne, BitVec.or_assoc, toNat_or_of_lt (toNat_half_sign h) hbound]

end

end Mettle.Common

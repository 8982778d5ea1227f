import Mettle.Common.Half
import Mettle.Lib.Formats

/-!
# The half-precision conversions round to the nearest

Each conversion is read on the sign and the magnitude of the pattern. Narrowing gives the magnitude that the general
narrowing of formats gives, and widening one with the same value.
-/

namespace Mettle.Common

open Mettle.Lib BitVec

/-! ## Fields of a pattern -/

variable {w k : ℕ} {a b : BitVec w}

/-- Sign and magnitude next to each other. -/
theorem toNat_or_of_lt {s : ℕ} (ha : a.toNat = s * 2 ^ k) (hb : b.toNat < 2 ^ k) :
    (a ||| b).toNat = s * 2 ^ k + b.toNat := by
  rw [toNat_or, ha, Nat.mul_comm, ← Nat.two_pow_add_eq_or_of_lt hb]

/-- The low bits. -/
theorem toNat_and_mask (hb : b.toNat = 2 ^ k - 1) : (a &&& b).toNat = a.toNat % 2 ^ k := by
  rw [toNat_and, hb, Nat.and_two_pow_sub_one_eq_mod]

/-- The highest bit of a number. -/
theorem toNat_and_bit (hb : b.toNat = 2 ^ k) (ha : a.toNat < 2 * 2 ^ k) :
    (a &&& b).toNat = a.toNat / 2 ^ k * 2 ^ k := by
  have hdiv : a.toNat / 2 ^ k < 2 := by
    rw [Nat.div_lt_iff_lt_mul (Nat.two_pow_pos k)]
    exact ha
  rw [toNat_and, hb, Nat.and_two_pow, Nat.testBit_eq_decide_div_mod_eq]
  rcases Nat.lt_succ_iff_lt_or_eq.mp hdiv with h | h
  · rw [Nat.lt_one_iff.mp h]
    rfl
  · rw [h]
    rfl

theorem toNat_shiftRight : (a >>> k).toNat = a.toNat / 2 ^ k := by
  rw [toNat_ushiftRight, Nat.shiftRight_eq_div_pow]

/-- A shift to the left multiplies when nothing is lost. -/
theorem toNat_shiftLeft (h : a.toNat * 2 ^ k < 2 ^ w) : (a <<< k).toNat = a.toNat * 2 ^ k := by
  rw [BitVec.toNat_shiftLeft, Nat.shiftLeft_eq, Nat.mod_eq_of_lt h]

section

variable (u : BitVec 32)

theorem toNat_sign : ((u >>> 16) &&& 0x8000#32).toNat = u.toNat / 2 ^ 31 * 2 ^ 15 := by
  rw [toNat_and_bit (k := 15) rfl]
  · rw [toNat_shiftRight, Nat.div_div_eq_div_mul, ← pow_add]
  · rw [toNat_shiftRight]
    omega

theorem toNat_exp : ((u >>> 23) &&& 0xFF#32).toNat = u.toNat % 2 ^ 31 / 2 ^ 23 := by
  rw [toNat_and_mask (k := 8) rfl, toNat_shiftRight]
  omega

theorem toNat_mant : (u &&& 0x7FFFFF#32).toNat = u.toNat % 2 ^ 31 % 2 ^ 23 := by
  rw [toNat_and_mask (k := 23) rfl]
  omega

end

/-! ## Narrowing to half precision -/

variable {s k e : ℕ} {mant : BitVec 32}

/-- The sign with what is behind it, cut to sixteen bits. -/
theorem toNat_pack {a b : BitVec 32} (hs : s < 2) (ha : a.toNat = s * 2 ^ 15) (hb : b.toNat < 2 ^ 15) :
    ((a ||| b).setWidth 16).toNat = s * 2 ^ 15 + b.toNat := by
  rw [toNat_setWidth, toNat_or_of_lt ha hb]
  omega

/-- To round is to add one when more than half is dropped, or half and the rest is odd. -/
theorem toNat_roundUp {keep dropped half : BitVec 32} (hkeep : keep.toNat < 2 ^ 31) :
    (if dropped > half ∨ dropped = half ∧ keep &&& 1#32 ≠ 0#32 then keep + 1#32 else keep).toNat =
      if dropped.toNat > half.toNat ∨ dropped.toNat = half.toNat ∧ keep.toNat % 2 ≠ 0 then keep.toNat + 1
      else keep.toNat := by
  have hcond : (dropped > half ∨ dropped = half ∧ keep &&& 1#32 ≠ 0#32) ↔
      (dropped.toNat > half.toNat ∨ dropped.toNat = half.toNat ∧ keep.toNat % 2 ≠ 0) := by
    rw [gt_iff_lt, lt_def, ← toNat_inj, ne_eq, ← toNat_inj, toNat_and_mask (k := 1) rfl]
    rfl
  by_cases h : dropped > half ∨ dropped = half ∧ keep &&& 1#32 ≠ 0#32
  · rw [if_pos h, if_pos (hcond.mp h), toNat_add]
    exact Nat.mod_eq_of_lt (by rw [show (1#32).toNat = 1 from rfl]; omega)
  · rw [if_neg h, if_neg (fun h' => h (hcond.mpr h'))]

/-- Rounding does not pass a bound that was not reached. -/
theorem roundShift_le {a b : ℕ} (h : a < b * 2 ^ s) : roundShift a s ≤ b := by
  have hkeep : a / 2 ^ s < b := by
    rw [Nat.div_lt_iff_lt_mul (Nat.two_pow_pos s)]
    exact h
  rw [roundShift]
  split
  · exact hkeep
  · exact hkeep.le

theorem toNat_one_shiftLeft (hk : k < 32) : (1#32 <<< k).toNat = 2 ^ k := by
  have hlt : 1 * 2 ^ k < 2 ^ 32 := by
    rw [Nat.one_mul]
    exact Nat.pow_lt_pow_right (by norm_num) hk
  rw [toNat_shiftLeft hlt]
  exact Nat.one_mul _

/-- The rounding of a subnormal result. -/
theorem toNat_roundSubnormal (hmant : mant.toNat < 2 ^ 23) (hlo : 102 ≤ e) (hhi : e ≤ 112) :
    (roundSubnormalHalf mant (e - 112)).toNat = roundShift (2 ^ 23 + mant.toNat) (14 + (112 - e)) := by
  have hshift : (14 - ((e : ℤ) - 112)).toNat = 14 + (112 - e) := by omega
  rw [roundSubnormalHalf, hshift]
  generalize hk : 14 + (112 - e) = k
  have hfull : (mant ||| 0x800000#32).toNat = 2 ^ 23 + mant.toNat := by
    rw [BitVec.or_comm, toNat_or_of_lt (s := 1) (k := 23) rfl hmant, Nat.one_mul]
  have hbound : 2 ^ 23 + mant.toNat < 1024 * 2 ^ k := by
    have hle : 2 ^ 14 ≤ 2 ^ k := Nat.pow_le_pow_right (by norm_num) (by omega)
    omega
  have hmask : ((1#32 <<< k) - 1#32).toNat = 2 ^ k - 1 := by
    have hone := toNat_one_shiftLeft (k := k) (by omega)
    have hle : 1#32 ≤ 1#32 <<< k := by
      rw [le_def, hone]
      exact Nat.one_le_two_pow
    rw [toNat_sub_of_le hle, hone]
    rfl
  have hround := roundShift_le hbound
  have hkeep : ((mant ||| 0x800000#32) >>> k).toNat = (2 ^ 23 + mant.toNat) / 2 ^ k := by rw [toNat_shiftRight, hfull]
  have hkeeplt : (2 ^ 23 + mant.toNat) / 2 ^ k < 1024 := by
    rw [Nat.div_lt_iff_lt_mul (Nat.two_pow_pos k)]
    exact hbound
  have hvalue := @toNat_roundUp ((mant ||| 0x800000#32) >>> k) ((mant ||| 0x800000#32) &&& ((1#32 <<< k) - 1#32))
    (1#32 <<< (k - 1)) (by omega)
  rw [hkeep, toNat_and_mask hmask, hfull, toNat_one_shiftLeft (by omega)] at hvalue
  have hresult := hvalue.trans (rfl : _ = roundShift (2 ^ 23 + mant.toNat) k)
  simp only [if_neg (show ¬ 32 ≤ k by omega)]
  by_cases hge : 1024 ≤ roundShift (2 ^ 23 + mant.toNat) k
  · refine (congrArg BitVec.toNat (if_pos ?_)).trans (show 1024 = _ by omega)
    rw [le_def, hresult]
    exact hge
  · refine (congrArg BitVec.toNat (if_neg ?_)).trans hresult
    rw [le_def, hresult]
    exact hge

/-- The rounding of a normal one, which may carry into the exponent. -/
theorem toNat_roundNormal (hmant : mant.toNat < 2 ^ 23) (hlo : 113 ≤ e) (hhi : e < 143) :
    (roundNormalHalf mant (e - 112)).toNat = (e - 112 - 1) * 2 ^ 10 + roundShift (2 ^ 23 + mant.toNat) 13 := by
  have hkeep : (mant >>> 13).toNat = mant.toNat / 2 ^ 13 := toNat_shiftRight
  have hdropped : (mant &&& 0x1FFF#32).toNat = mant.toNat % 2 ^ 13 := toNat_and_mask (k := 13) rfl
  have hup : (mant >>> 13 + 1#32).toNat = mant.toNat / 2 ^ 13 + 1 := by
    rw [toNat_add, hkeep]
    exact Nat.mod_eq_of_lt (by rw [show (1#32).toNat = 1 from rfl]; omega)
  have hround : roundShift (2 ^ 23 + mant.toNat) 13 = 2 ^ 10 + roundShift mant.toNat 13 :=
    roundShift_add (c := 2 ^ 10) (s := 13) (by decide)
  have hexp (d : ℕ) (hd : d < 32) : (BitVec.ofInt 32 d <<< 10).toNat = d * 2 ^ 10 := by
    have htoNat : (BitVec.ofInt 32 (d : ℤ)).toNat = d := by
      rw [ofInt_natCast, toNat_ofNat]
      exact Nat.mod_eq_of_lt (by omega)
    rw [toNat_shiftLeft (by rw [htoNat]; omega), htoNat]
  obtain ⟨d, rfl⟩ : ∃ d, e = 112 + d := ⟨e - 112, by omega⟩
  have hcast : ((112 + d : ℕ) : ℤ) - 112 = (d : ℕ) := by omega
  -- the code's test for rounding up, as the comparison with half of the last place
  have hcond : (mant &&& 0x1FFF#32 > 0x1000#32 ∨ mant &&& 0x1FFF#32 = 0x1000#32 ∧ mant >>> 13 &&& 1#32 ≠ 0#32) ↔
      (mant.toNat % 2 ^ 13 > 2 ^ 12 ∨ mant.toNat % 2 ^ 13 = 2 ^ 12 ∧ mant.toNat / 2 ^ 13 % 2 ≠ 0) := by
    rw [gt_iff_lt, lt_def, ← toNat_inj, ne_eq, ← toNat_inj, hdropped,
      toNat_and_mask (k := 1) (b := 1#32) rfl, hkeep]
    rfl
  rw [roundNormalHalf, hcast, hround]
  have hroundMant : roundShift mant.toNat 13 =
      if mant.toNat % 2 ^ 13 > 2 ^ 12 ∨ mant.toNat % 2 ^ 13 = 2 ^ 12 ∧ mant.toNat / 2 ^ 13 % 2 ≠ 0
      then mant.toNat / 2 ^ 13 + 1 else mant.toNat / 2 ^ 13 := rfl
  rw [hroundMant]
  by_cases hc : mant &&& 0x1FFF#32 > 0x1000#32 ∨ mant &&& 0x1FFF#32 = 0x1000#32 ∧ mant >>> 13 &&& 1#32 ≠ 0#32
  · rw [if_pos hc, if_pos (hcond.mp hc)]
    by_cases hcarry : 1024#32 ≤ mant >>> 13 + 1#32
    · -- the mantissa carries into the exponent
      have hfull : 1024 ≤ mant.toNat / 2 ^ 13 + 1 := by
        rw [← hup]
        exact hcarry
      rw [if_pos hcarry]
      by_cases hlast : 31 ≤ (d : ℤ) + 1
      · rw [if_pos hlast]
        show 31744 = _
        omega
      · rw [if_neg hlast, show (d : ℤ) + 1 = ((d + 1 : ℕ) : ℤ) by push_cast; rfl,
          toNat_or_of_lt (hexp (d + 1) (by omega)) (by decide), show (0#32).toNat = 0 from rfl]
        omega
    · have hless : mant.toNat / 2 ^ 13 + 1 < 1024 := by
        rw [← hup]
        exact BitVec.not_le.mp hcarry
      rw [if_neg hcarry, toNat_or_of_lt (hexp d (by omega)) (by omega), hup]
      omega
  · rw [if_neg hc, if_neg (fun h => hc (hcond.mpr h)), toNat_or_of_lt (hexp d (by omega)) (by omega), hkeep]
    omega

/-- A normal result with its carry fits. -/
theorem normal_lt {r : ℕ} (he : e < 143) (hr : r ≤ 2048) : (e - 112 - 1) * 2 ^ 10 + r < 2 ^ 15 := by omega

/-- The magnitude that a finite number is narrowed to. -/
theorem toNat_f32bitsToF16bits {u : BitVec 32} (hfinite : u.toNat % 2 ^ 31 < 255 * 2 ^ 23) :
    (f32bitsToF16bits u).toNat =
      u.toNat / 2 ^ 31 * 2 ^ 15 + narrow 23 10 112 (31 * 2 ^ 10) (u.toNat % 2 ^ 31) := by
  have hexp := toNat_exp u
  have hmant := toNat_mant u
  have hsign := toNat_sign u
  have hs : u.toNat / 2 ^ 31 < 2 := by omega
  rw [f32bitsToF16bits, narrow]
  -- sign, exponent and fraction as numbers of their own, so that the rest is arithmetic
  generalize (u >>> 16) &&& 0x8000#32 = sign at hsign ⊢
  generalize (u >>> 23) &&& 0xFF#32 = exp at hexp ⊢
  generalize u &&& 0x7FFFFF#32 = mant at hmant ⊢
  generalize u.toNat / 2 ^ 31 = s at hsign hs ⊢
  have hmantlt : mant.toNat < 2 ^ 23 := by omega
  have hsplit : u.toNat % 2 ^ 31 = exp.toNat * 2 ^ 23 + mant.toNat := by omega
  rw [hsplit] at hfinite ⊢
  rw [show (exp.toNat * 2 ^ 23 + mant.toNat) / 2 ^ 23 = exp.toNat by omega,
    show (exp.toNat * 2 ^ 23 + mant.toNat) % 2 ^ 23 = mant.toNat by omega]
  have hne : exp ≠ 255#32 := by
    rintro rfl
    have h255 : (255#32).toNat = 255 := by decide
    omega
  have hcut : (sign.setWidth 16).toNat = s * 2 ^ 15 := by
    have hsmall : s * 2 ^ 15 < 2 * 2 ^ 15 := Nat.mul_lt_mul_of_pos_right hs (Nat.two_pow_pos 15)
    rw [toNat_setWidth, hsign]
    exact Nat.mod_eq_of_lt hsmall
  rw [if_neg hne]
  by_cases hzero : exp = 0#32
  · have hzero' : exp.toNat = 0 := by rw [hzero]; rfl
    rw [if_pos hzero, hcut]
    simp only [if_pos hzero', Nat.add_zero]
  have hzero' : exp.toNat ≠ 0 := by
    intro h
    exact hzero (eq_of_toNat_eq h)
  rw [if_neg hzero]
  simp only [if_neg hzero']
  generalize exp.toNat = e at hfinite hzero' ⊢
  -- too large, subnormal or normal in the half format, as the code branches
  by_cases htop : 31 ≤ (e : ℤ) - 112
  · rw [if_pos htop, if_pos (show 31 * 2 ^ 10 ≤ (e - 112) * 2 ^ 10 by omega), toNat_pack hs hsign (by decide)]
    rfl
  · rw [if_neg htop, if_neg (show ¬ 31 * 2 ^ 10 ≤ (e - 112) * 2 ^ 10 by omega)]
    by_cases hsub : e ≤ 112
    · rw [if_pos hsub, if_pos (show (e : ℤ) - 112 ≤ 0 by omega)]
      by_cases htiny : (e : ℤ) - 112 < -10
      · rw [if_pos htiny, if_pos (show e + 10 < 112 by omega), hcut, Nat.add_zero]
      · have hround := toNat_roundSubnormal hmantlt (by omega) hsub
        have hle : roundShift (2 ^ 23 + mant.toNat) (14 + (112 - e)) ≤ 1024 := by
          apply roundShift_le
          have hpow : 2 ^ 14 ≤ 2 ^ (14 + (112 - e)) := Nat.pow_le_pow_right (by norm_num) (by omega)
          omega
        rw [if_neg htiny, if_neg (show ¬ e + 10 < 112 by omega), toNat_pack hs hsign (by rw [hround]; omega), hround]
    · have hround := toNat_roundNormal hmantlt (by omega) (show e < 143 by omega)
      have hle : roundShift (2 ^ 23 + mant.toNat) 13 ≤ 2048 := by
        apply roundShift_le
        calc 2 ^ 23 + mant.toNat < 2 ^ 23 + 2 ^ 23 := Nat.add_lt_add_left hmantlt _
          _ = 2048 * 2 ^ 13 := by norm_num
      have hbound := normal_lt (show e < 143 by omega) hle
      rw [if_neg hsub, if_neg (show ¬ (e : ℤ) - 112 ≤ 0 by omega), toNat_pack hs hsign (hround ▸ hbound), hround]

/-! ## The formats -/

/-- `float16`. -/
def half : Format := ⟨10, 5⟩

/-- `bfloat16`. -/
def bfloat : Format := ⟨7, 8⟩

/-- `float`. -/
def single : Format := ⟨23, 8⟩

/-- `double`. -/
def double : Format := ⟨52, 11⟩

/-- The unit of single precision, in units of half precision. -/
theorem single_unit_half : single.unit / half.unit = 1 / (2 ^ 125 : ℕ) := Format.unit_div (by decide)

/-- A bfloat drops 16 bits of a float. -/
theorem single_unit_bfloat : single.unit / bfloat.unit = 1 / (2 ^ 16 : ℕ) := Format.unit_div (by decide)

/-- The least double and the least float. -/
theorem double_unit_single : double.unit / single.unit = 1 / (2 ^ 925 : ℕ) := Format.unit_div (by decide)

theorem single_sign (u : BitVec 32) : single.sign u.toNat = u.toNat / 2 ^ 31 := by
  show u.toNat / 2 ^ 31 % 2 = _
  omega

/-- Narrowing a finite number to half precision rounds it to the nearest and keeps the sign. -/
theorem f32bitsToF16bits_rounds {u : BitVec 32} (hfinite : single.IsFinite u.toNat) :
    half.RoundsTo (single.value u.toNat) (f32bitsToF16bits u).toNat ∧
      half.sign (f32bitsToF16bits u).toNat = single.sign u.toNat := by
  have hnear := @narrow_nearest 23 10 112 31 (u.toNat % 2 ^ 31)
    (by norm_num) (by norm_num) (by norm_num) (by norm_num)
  have hx : |single.value u.toNat| / half.unit = (units 23 (u.toNat % 2 ^ 31) : ℚ) / (2 ^ (112 + 23 - 10) : ℕ) := by
    rw [Format.abs_value, mul_div_assoc, single_unit_half, mul_one_div]
    rfl
  rw [← hx] at hnear
  have hs := single.sign_lt_two u.toNat
  have hresult : (f32bitsToF16bits u).toNat =
      half.pattern (single.sign u.toNat) (narrow 23 10 112 (31 * 2 ^ 10) (u.toNat % 2 ^ 31)) := by
    rw [toNat_f32bitsToF16bits hfinite, single_sign]
    rfl
  rw [hresult]
  constructor
  · exact Format.roundsTo_pattern (by decide) (by decide) hs Format.value_eq_sign_mul_abs hnear
  · exact half.sign_pattern hs (hnear.1.trans_lt (by decide))

/-! ## Narrowing to bfloat -/

/-- Adding a bias of nearly one half and cutting off is rounding. -/
theorem bias_eq_roundShift {d : ℕ} (hd : d < 2 ^ 16) :
    (k * 2 ^ 16 + d + (2 ^ 15 - 1 + k % 2)) / 2 ^ 16 = roundShift (k * 2 ^ 16 + d) 16 := by
  have hkeep : (k * 2 ^ 16 + d) / 2 ^ 16 = k := by omega
  have hdropped : (k * 2 ^ 16 + d) % 2 ^ 16 = d := by omega
  rw [roundShift, hkeep, hdropped]
  clear hkeep hdropped
  split
  · omega
  · omega

/-- The narrowing to a bfloat of a finite float. -/
theorem toNat_f32bitsToBf16bits {u : BitVec 32} (hfinite : u.toNat % 2 ^ 31 < 255 * 2 ^ 23) :
    (f32bitsToBf16bits u).toNat = u.toNat / 2 ^ 31 * 2 ^ 15 + roundShift (u.toNat % 2 ^ 31) 16 := by
  have hne : (u >>> 23) &&& 0xFF#32 ≠ 255#32 := by
    intro heq
    have hexp := toNat_exp u
    rw [heq] at hexp
    have h255 : (255#32).toNat = 255 := by decide
    omega
  have hlsb : ((u >>> 16) &&& 1#32).toNat = u.toNat / 2 ^ 16 % 2 := by
    rw [toNat_and_mask (k := 1) rfl, toNat_shiftRight]
    rfl
  have hbias : (0x7FFF#32 + ((u >>> 16) &&& 1#32)).toNat = 2 ^ 15 - 1 + u.toNat / 2 ^ 16 % 2 := by
    rw [toNat_add, hlsb]
    show (32767 + u.toNat / 2 ^ 16 % 2) % 2 ^ 32 = _
    omega
  obtain ⟨k, d, hd, hkd⟩ : ∃ k d, d < 2 ^ 16 ∧ u.toNat % 2 ^ 31 = k * 2 ^ 16 + d :=
    ⟨u.toNat % 2 ^ 31 / 2 ^ 16, u.toNat % 2 ^ 31 % 2 ^ 16, Nat.mod_lt _ (by norm_num), (Nat.div_add_mod' _ _).symm⟩
  have hparity : u.toNat / 2 ^ 16 % 2 = k % 2 := by omega
  rw [f32bitsToBf16bits, if_neg hne, toNat_setWidth, toNat_shiftRight, toNat_add, hbias, hkd, hparity,
    ← bias_eq_roundShift hd]
  have hmod : (u.toNat + (2 ^ 15 - 1 + k % 2)) % 2 ^ 32 = u.toNat + (2 ^ 15 - 1 + k % 2) := Nat.mod_eq_of_lt (by omega)
  omega

/-- It rounds to the nearest, to even in a tie. -/
theorem f32bitsToBf16bits_rounds {u : BitVec 32} (hfinite : single.IsFinite u.toNat) :
    bfloat.RoundsTo (single.value u.toNat) (f32bitsToBf16bits u).toNat ∧
      bfloat.sign (f32bitsToBf16bits u).toNat = single.sign u.toNat := by
  have hnear := @roundShift_nearest 23 7 255 (u.toNat % 2 ^ 31) (by norm_num) (by norm_num)
    hfinite
  have hx : |single.value u.toNat| / bfloat.unit = (units 23 (u.toNat % 2 ^ 31) : ℚ) / (2 ^ (23 - 7) : ℕ) := by
    rw [Format.abs_value, mul_div_assoc, single_unit_bfloat, mul_one_div]
    rfl
  rw [← hx] at hnear
  have hs := single.sign_lt_two u.toNat
  have hresult : (f32bitsToBf16bits u).toNat =
      bfloat.pattern (single.sign u.toNat) (roundShift (u.toNat % 2 ^ 31) (23 - 7)) := by
    rw [toNat_f32bitsToBf16bits hfinite, single_sign]
    rfl
  rw [hresult]
  constructor
  · exact Format.roundsTo_pattern (by decide) (by decide) hs Format.value_eq_sign_mul_abs hnear
  · exact bfloat.sign_pattern hs (hnear.1.trans_lt (by decide))

end Mettle.Common

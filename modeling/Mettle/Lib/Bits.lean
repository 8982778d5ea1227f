import Mathlib

/-!
# Powers of two and masks

Multiplication, division and remainder by a power of two are shifts and masks, and words that are not
negative are divided alike with and without sign.
-/

open BitVec

namespace Mettle.Lib

variable {w : ℕ} {x y : BitVec w}

/-- A word that is not negative reads the same signed and unsigned. -/
theorem toNat_of_nonneg (h : 0 ≤ x.toInt) : x.toInt = x.toNat := by
  apply toInt_eq_toNat_of_msb
  rw [msb_eq_toInt]
  simpa using h

theorem msb_of_nonneg (h : 0 ≤ x.toInt) : x.msb = false := by
  rw [msb_eq_toInt]
  simpa using h

theorem sdiv_of_nonneg (hx : 0 ≤ x.toInt) (hy : 0 ≤ y.toInt) : x.sdiv y = x / y := by
  rw [sdiv_eq, msb_of_nonneg hx, msb_of_nonneg hy]
  rfl

theorem srem_of_nonneg (hx : 0 ≤ x.toInt) (hy : 0 ≤ y.toInt) : x.srem y = x % y := by
  rw [srem_eq, msb_of_nonneg hx, msb_of_nonneg hy]

theorem sshiftRight_of_nonneg (hx : 0 ≤ x.toInt) (k : ℕ) : x.sshiftRight k = x >>> k :=
  sshiftRight_eq_of_msb_false (msb_of_nonneg hx)

theorem slt_of_nonneg (hx : 0 ≤ x.toInt) (hy : 0 ≤ y.toInt) : x.slt y = x.ult y := by
  rw [BitVec.slt, BitVec.ult, toNat_of_nonneg hx, toNat_of_nonneg hy]
  simp

theorem sle_of_nonneg (hx : 0 ≤ x.toInt) (hy : 0 ≤ y.toInt) : x.sle y = x.ule y := by
  rw [BitVec.sle, BitVec.ule, toNat_of_nonneg hx, toNat_of_nonneg hy]
  simp

/-! ## Powers of two -/

theorem toNat_sub_one (hx : x.toNat ≠ 0) : (x - 1).toNat = x.toNat - 1 := by
  have hw : w ≠ 0 := by
    rintro rfl
    omega
  have hone : (1 : BitVec w).toNat = 1 := by
    exact Nat.mod_eq_of_lt (Nat.one_lt_two_pow hw)
  rw [toNat_sub, hone, show 2 ^ w - 1 + x.toNat = x.toNat - 1 + 2 ^ w by omega, Nat.add_mod_right,
    Nat.mod_eq_of_lt (by omega)]

/-- A word with one bit. -/
theorem eq_twoPow_of_and (hx : x.toNat ≠ 0) (hand : x &&& (x - 1) = 0) :
    x.toNat.log2 < w ∧ x = twoPow w x.toNat.log2 := by
  have hnat : x.toNat &&& (x.toNat - 1) = 0 := by
    rw [← toNat_sub_one hx, ← toNat_and, hand]
    rfl
  obtain ⟨k, hk⟩ := (Nat.and_sub_one_eq_zero_iff_isPowerOfTwo hx).mp hnat
  have hlog : x.toNat.log2 = k := by rw [hk, Nat.log2_two_pow]
  have hkw : k < w := by
    have := x.isLt
    rw [hk] at this
    exact (Nat.pow_lt_pow_iff_right (by decide)).mp this
  rw [hlog]
  refine ⟨hkw, eq_of_toNat_eq ?_⟩
  rw [toNat_twoPow_of_lt hkw, hk]

variable {k b : ℕ} {h m : BitVec w}

theorem umod_twoPow (hk : k < w) : x % twoPow w k = x &&& (twoPow w k - 1) := by
  have hpow := toNat_twoPow_of_lt hk
  have hpos : 0 < 2 ^ k := Nat.two_pow_pos k
  apply eq_of_toNat_eq
  rw [toNat_umod, toNat_and, toNat_sub_one (by omega), hpow, Nat.and_two_pow_sub_one_eq_mod]

/-- A power of two divides a number exactly when it divides the distance to a larger power, after the
reduction by a third one. -/
theorem dvd_sub_mod_iff {n : ℕ} (hn : n ≤ 2 ^ w) (hb : b ≤ w) (hk : k ≤ w) :
    2 ^ b ∣ (2 ^ w - n) % 2 ^ k ↔ 2 ^ b ∣ n % 2 ^ k := by
  have hdvd : ∀ {c}, c ≤ w → 2 ^ c ∣ 2 ^ w := fun hc => Nat.pow_dvd_pow 2 hc
  rcases le_or_gt b k with hbk | hkb
  · rw [Nat.dvd_mod_iff (Nat.pow_dvd_pow 2 hbk), Nat.dvd_mod_iff (Nat.pow_dvd_pow 2 hbk)]
    exact Nat.dvd_sub_iff_right hn (hdvd hb)
  · -- what is left is too small to be a multiple other than zero
    have hsmall : ∀ m, 2 ^ b ∣ m % 2 ^ k ↔ 2 ^ k ∣ m := by
      intro m
      have hlt : m % 2 ^ k < 2 ^ b :=
        (Nat.mod_lt m (Nat.two_pow_pos k)).trans (Nat.pow_lt_pow_right (by decide) hkb)
      rw [Nat.dvd_iff_mod_eq_zero, Nat.dvd_iff_mod_eq_zero, Nat.mod_eq_of_lt hlt]
    rw [hsmall, hsmall]
    exact Nat.dvd_sub_iff_right hn (hdvd hk)

/-- The signed remainder by a power of two has the trailing zeros of the mask. -/
theorem dvd_srem_twoPow_iff (hk : k + 1 < w) (hb : b ≤ w) :
    2 ^ b ∣ (x.srem (twoPow w k)).toNat ↔ 2 ^ b ∣ (x &&& (twoPow w k - 1)).toNat := by
  have hmsb : (twoPow w k).msb = false := by
    simp
    omega
  have hpow := toNat_twoPow_of_lt (show k < w by omega)
  rw [← umod_twoPow (by omega), srem_eq, hmsb]
  cases hx : x.msb with
  | false => rfl
  | true =>
    have hmod : ((-x) % twoPow w k).toNat = (2 ^ w - x.toNat) % 2 ^ k := by
      rw [toNat_umod, hpow, toNat_neg, Nat.mod_mod_of_dvd _ (Nat.pow_dvd_pow 2 (by omega))]
    rw [toNat_neg, Nat.dvd_mod_iff (Nat.pow_dvd_pow 2 hb),
      Nat.dvd_sub_iff_right (isLt _).le (Nat.pow_dvd_pow 2 hb), hmod,
      dvd_sub_mod_iff x.isLt.le hb (by omega), toNat_umod, hpow]

/-- A word within the bounds of a narrower signed type. -/
theorem signExtend_of_fit (hk : 0 < k) (hkw : k ≤ w) (hlo : -2 ^ (k - 1) ≤ x.toInt) (hhi : x.toInt < 2 ^ (k - 1)) :
    (x.setWidth k).signExtend w = x := by
  apply eq_of_toInt_eq
  have hdvd : 2 ^ k ∣ 2 ^ w := Nat.pow_dvd_pow 2 hkw
  rw [toInt_signExtend_of_le hkw, toInt_setWidth, ← Int.bmod_bmod_of_dvd hdvd,
    ← toInt_eq_toNat_bmod]
  have htwo : (2 : ℤ) ^ k = 2 * 2 ^ (k - 1) := by rw [← pow_succ', Nat.sub_add_cancel hk]
  apply Int.bmod_eq_of_le
  · push_cast
    omega
  · push_cast
    omega

/-- A word within the bounds of a narrower unsigned type. -/
theorem setWidth_of_fit (hlo : 0 ≤ x.toInt) (hhi : x.toInt < 2 ^ k) : (x.setWidth k).setWidth w = x := by
  have hnat := toNat_of_nonneg hlo
  have hlt : x.toNat < 2 ^ k := by
    rw [hnat] at hhi
    exact_mod_cast hhi
  apply eq_of_toNat_eq
  rw [toNat_setWidth, toNat_setWidth, Nat.mod_eq_of_lt hlt, Nat.mod_eq_of_lt x.isLt]

/-! ## Truncation to zero -/

/-- The low bits are zero when a power of two divides. -/
theorem setWidth_eq_zero_iff : x.setWidth k = 0 ↔ 2 ^ k ∣ x.toNat := by
  rw [← toNat_inj, toNat_setWidth, Nat.dvd_iff_mod_eq_zero]
  simp

/-- Only zero has as many trailing zeros as bits. -/
theorem dvd_toNat_iff : 2 ^ w ∣ x.toNat ↔ x = 0 := by
  rw [← setWidth_eq_zero_iff, setWidth_eq]

/-- The same of bits that are cut off and extended. -/
theorem zeroExtend_truncate_eq_zero_iff (hk : k ≤ w) : (x.truncate k).zeroExtend w = 0 ↔ 2 ^ k ∣ x.toNat := by
  rw [← setWidth_eq_zero_iff, ← toNat_inj, ← toNat_inj, zeroExtend_eq_setWidth,
    toNat_setWidth_of_le hk]
  simp

theorem signExtend_truncate_eq_zero_iff (hk : k ≤ w) : (x.truncate k).signExtend w = 0 ↔ 2 ^ k ∣ x.toNat := by
  rw [← setWidth_eq_zero_iff, ← toInt_inj, ← toInt_inj, toInt_signExtend_of_le hk]
  simp

/-! ## Covering masks -/

/-- Every bit below a bit of a word, up to a distance. -/
def Smeared (h m : BitVec w) (d : ℕ) : Prop :=
  ∀ j, m.getLsbD j = true ↔ ∃ k < d, h.getLsbD (j + k) = true

theorem smeared_one (h : BitVec w) : Smeared h h 1 := by
  intro j
  constructor
  · intro hj
    exact ⟨0, Nat.one_pos, hj⟩
  · rintro ⟨k, hk, hj⟩
    rwa [Nat.lt_one_iff.mp hk, Nat.add_zero] at hj

/-- One round of smearing doubles the distance. -/
theorem Smeared.double {d : ℕ} (hm : Smeared h m d) : Smeared h (m ||| m >>> d) (2 * d) := by
  intro j
  rw [getLsbD_or, Bool.or_eq_true, getLsbD_ushiftRight, hm, hm]
  constructor
  · rintro (⟨k, hk, hj⟩ | ⟨k, hk, hj⟩)
    · exact ⟨k, by omega, hj⟩
    · exact ⟨d + k, by omega, by rwa [show j + (d + k) = d + j + k by omega]⟩
  · rintro ⟨k, hk, hj⟩
    by_cases hkd : k < d
    · exact Or.inl ⟨k, hkd, hj⟩
    · exact Or.inr ⟨k - d, by omega, by rwa [show d + j + (k - d) = j + k by omega]⟩

/-- The mask covers every word up to the one it is made of. -/
theorem Smeared.and_eq (hm : Smeared h m w) (hle : x.toNat ≤ h.toNat) : x &&& m = x := by
  apply eq_of_getLsbD_eq
  intro j hj
  rw [getLsbD_and]
  cases hx : x.getLsbD j with
  | false => rfl
  | true =>
    -- the leading bit of the larger word is not below this bit
    have hpow : 2 ^ j ≤ h.toNat := (Nat.ge_two_pow_of_testBit hx).trans hle
    have hne : h.toNat ≠ 0 := (Nat.two_pow_pos j).trans_le hpow |>.ne'
    have hlog : j ≤ h.toNat.log2 := (Nat.le_log2 hne).mpr hpow
    have hlt : h.toNat.log2 < w := (Nat.log2_lt hne).mpr h.isLt
    refine (hm j).mpr ⟨h.toNat.log2 - j, by omega, ?_⟩
    rw [show j + (h.toNat.log2 - j) = h.toNat.log2 by omega]
    exact Nat.testBit_log2 hne

end Mettle.Lib

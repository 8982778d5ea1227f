import Mettle.Lib.Magic

/-!
# Magic numbers

`cg_magic_s64` and `cg_magic_u64` of `codegen/binary/strength_rules.c` find, for a divisor, the multiplier
and the shift that replace a division. Both loop over the powers `2 ^ p` with the quotients and remainders
of `2 ^ p` by two numbers, on words of 64 bits.
-/

open BitVec

namespace Mettle.Mir

/-- The locals of the two loops. `addout` is only written by the unsigned one. -/
structure MagicState where
  p : ℕ
  q1 : BitVec 64
  r1 : BitVec 64
  q2 : BitVec 64
  r2 : BitVec 64
  addout : Bool := false
  deriving DecidableEq, Repr

/-- `two63`. -/
def two63 : BitVec 64 := 0x8000000000000000

/-- The test both loops end with. -/
def MagicState.short (s : MagicState) (delta : BitVec 64) : Bool :=
  s.q1 < delta ∨ (s.q1 = delta ∧ s.r1 = 0)

/-! ## Signed divisors -/

/-- The body of the loop of `cg_magic_s64`. -/
def magicS64Step (ad anc : BitVec 64) (s : MagicState) : MagicState :=
  let q1 := s.q1 <<< 1
  let r1 := s.r1 <<< 1
  let q2 := s.q2 <<< 1
  let r2 := s.r2 <<< 1
  { p := s.p + 1
    q1 := if anc ≤ r1 then q1 + 1 else q1
    r1 := if anc ≤ r1 then r1 - anc else r1
    q2 := if ad ≤ r2 then q2 + 1 else q2
    r2 := if ad ≤ r2 then r2 - ad else r2 }

/-- The loop of `cg_magic_s64`, for at most `fuel` rounds. -/
def magicS64Loop (ad anc : BitVec 64) : ℕ → MagicState → Option MagicState
  | 0, _ => none
  | fuel + 1, s =>
    let s := magicS64Step ad anc s
    if s.short (ad - s.r2) then magicS64Loop ad anc fuel s else some s

/-- `cg_magic_s64`: the multiplier and the shift. -/
def cgMagicS64 (d : BitVec 64) : Option (BitVec 64 × ℕ) :=
  let ad := if d.slt 0 then -d else d
  let t := two63 + d >>> 63
  let anc := t - 1 - t % ad
  let q1 := two63 / anc
  let q2 := two63 / ad
  (magicS64Loop ad anc 64 { p := 63, q1, r1 := two63 - q1 * anc, q2, r2 := two63 - q2 * ad }).map fun s =>
    (if d.slt 0 then -(s.q2 + 1) else s.q2 + 1, s.p - 64)

/-! ## Unsigned divisors -/

/-- The body of the loop of `cg_magic_u64`. -/
def magicU64Step (d nc : BitVec 64) (s : MagicState) : MagicState :=
  let up1 := nc - s.r1 ≤ s.r1
  let up2 := d - s.r2 ≤ s.r2 + 1
  { p := s.p + 1
    q1 := if up1 then 2 * s.q1 + 1 else 2 * s.q1
    r1 := if up1 then 2 * s.r1 - nc else 2 * s.r1
    q2 := if up2 then 2 * s.q2 + 1 else 2 * s.q2
    r2 := if up2 then 2 * s.r2 + 1 - d else 2 * s.r2 + 1
    addout := s.addout || (if up2 then two63 - 1 ≤ s.q2 else two63 ≤ s.q2) }

/-- The loop of `cg_magic_u64`, for at most `fuel` rounds. -/
def magicU64Loop (d nc : BitVec 64) : ℕ → MagicState → Option MagicState
  | 0, _ => none
  | fuel + 1, s =>
    let s := magicU64Step d nc s
    if s.p < 128 ∧ s.short (d - 1 - s.r2) then magicU64Loop d nc fuel s else some s

/-- `cg_magic_u64`: the multiplier, the shift and whether the multiplier has a 65th bit. -/
def cgMagicU64 (d : BitVec 64) : Option (BitVec 64 × ℕ × Bool) :=
  let nc := BitVec.allOnes 64 - (0 - d) % d
  let q1 := two63 / nc
  let q2 := (two63 - 1) / d
  (magicU64Loop d nc 65 { p := 63, q1, r1 := two63 - q1 * nc, q2, r2 := two63 - 1 - q2 * d }).map fun s =>
    (s.q2 + 1, s.p - 64, s.addout)

/-! ## The unsigned loop -/

open Lib

/-- The numbers of a state of the unsigned loop: the quotients are kept modulo `2 ^ 64`. -/
structure UnsignedInv (d nc : ℕ) (s : MagicState) : Prop where
  q1 : s.q1.toNat = 2 ^ s.p / nc % 2 ^ 64
  r1 : s.r1.toNat = 2 ^ s.p % nc
  q2 : s.q2.toNat = (2 ^ s.p - 1) / d % 2 ^ 64
  r2 : s.r2.toNat = (2 ^ s.p - 1) % d
  addout : s.addout = true ↔ 2 ^ 64 ≤ (2 ^ s.p - 1) / d + 1

theorem two63_toNat : two63.toNat = 2 ^ 63 := by decide

section

variable {d nc : BitVec 64} {s : MagicState}

/-- The remainders both loops start with. -/
theorem toNat_sub_div_mul (x y : BitVec 64) : (x - x / y * y).toNat = x.toNat % y.toNat := by
  have hx := x.isLt
  have hle : x.toNat / y.toNat * y.toNat ≤ x.toNat := Nat.div_mul_le_self _ _
  have hsplit := Nat.div_add_mod x.toNat y.toNat
  rw [Nat.mul_comm] at hsplit
  have hprod : (x / y * y).toNat = x.toNat / y.toNat * y.toNat := by
    rw [toNat_mul, toNat_udiv, Nat.mod_eq_of_lt (lt_of_le_of_lt hle hx)]
  rw [toNat_sub, hprod]
  omega

theorem toNat_double (x : BitVec 64) : (2 * x).toNat = 2 * x.toNat % 2 ^ 64 := by
  rfl

theorem toNat_double_add_one (x : BitVec 64) : (2 * x + 1).toNat = (2 * x.toNat + 1) % 2 ^ 64 := by
  rw [toNat_add, toNat_double, Nat.mod_add_mod]
  rfl

/-- The double of a remainder, reduced. -/
theorem toNat_double_sub {x y : BitVec 64} (hle : y.toNat ≤ 2 * x.toNat) (hlt : x.toNat < y.toNat) :
    (2 * x - y).toNat = 2 * x.toNat - y.toNat := by
  rw [toNat_sub, toNat_double]
  omega

/-- The same with a carry. -/
theorem toNat_double_add_one_sub {x y : BitVec 64} (hle : y.toNat ≤ 2 * x.toNat + 1) (hlt : x.toNat < y.toNat) :
    (2 * x + 1 - y).toNat = 2 * x.toNat + 1 - y.toNat := by
  rw [toNat_sub, toNat_double_add_one]
  omega

section

variable (h : UnsignedInv d.toNat nc.toNat s)
include h

/-- The first pair of the unsigned loop. -/
theorem UnsignedInv.step_nc (hnc : 0 < nc.toNat) :
    (magicU64Step d nc s).q1.toNat = 2 ^ (s.p + 1) / nc.toNat % 2 ^ 64 ∧
      (magicU64Step d nc s).r1.toNat = 2 ^ (s.p + 1) % nc.toNat := by
  have hr1 : s.r1.toNat < nc.toNat := h.r1 ▸ Nat.mod_lt _ hnc
  have hup : nc - s.r1 ≤ s.r1 ↔ nc.toNat ≤ 2 * s.r1.toNat := by
    rw [le_def, toNat_sub]
    omega
  have hpow : 2 ^ (s.p + 1) = 2 * 2 ^ s.p + 0 := by ring
  simp only [magicU64Step, hup, hpow]
  split
  · rename_i hge
    obtain ⟨hdiv, hmod⟩ := div_mod_double_of_ge (n := 2 ^ s.p) (Nat.zero_le 1) hnc (h.r1 ▸ hge)
    rw [hdiv, hmod, toNat_double_add_one, toNat_double_sub hge hr1, h.q1, h.r1]
    exact ⟨by omega, rfl⟩
  · rename_i hlt
    obtain ⟨hdiv, hmod⟩ := div_mod_double_of_lt (n := 2 ^ s.p) (e := 0) hnc (by rw [← h.r1]; omega)
    rw [hdiv, hmod, toNat_double, toNat_double, h.q1, ← h.r1]
    exact ⟨by omega, by omega⟩

/-- The second pair of the unsigned loop, and the 65th bit. -/
theorem UnsignedInv.step_d (hd : 0 < d.toNat) :
    (magicU64Step d nc s).q2.toNat = (2 ^ (s.p + 1) - 1) / d.toNat % 2 ^ 64 ∧
      (magicU64Step d nc s).r2.toNat = (2 ^ (s.p + 1) - 1) % d.toNat ∧
      ((magicU64Step d nc s).addout = true ↔ 2 ^ 64 ≤ (2 ^ (s.p + 1) - 1) / d.toNat + 1) := by
  have hr2 : s.r2.toNat < d.toNat := h.r2 ▸ Nat.mod_lt _ hd
  have hone : (1 : BitVec 64).toNat = 1 := rfl
  have hup : d - s.r2 ≤ s.r2 + 1 ↔ d.toNat ≤ 2 * s.r2.toNat + 1 := by
    rw [le_def, toNat_sub, toNat_add, hone]
    omega
  have hpow : 2 ^ (s.p + 1) - 1 = 2 * (2 ^ s.p - 1) + 1 := by
    have := Nat.one_le_two_pow (n := s.p)
    omega
  have hadd := h.addout
  have hq2 := h.q2
  have hhalf : two63 ≤ s.q2 ↔ 2 ^ 63 ≤ s.q2.toNat := by rw [le_def, two63_toNat]
  have hhalf' : two63 - 1 ≤ s.q2 ↔ 2 ^ 63 - 1 ≤ s.q2.toNat := by
    rw [le_def, toNat_sub, two63_toNat, hone]
    omega
  simp only [magicU64Step, hup, hpow]
  split
  · rename_i hge
    obtain ⟨hdiv, hmod⟩ := div_mod_double_of_ge (n := 2 ^ s.p - 1) le_rfl hd (h.r2 ▸ hge)
    rw [hdiv, hmod, toNat_double_add_one, toNat_double_add_one_sub hge hr2, hq2, h.r2, Bool.or_eq_true, hadd,
      decide_eq_true_eq, hhalf', hq2]
    exact ⟨by omega, rfl, by omega⟩
  · rename_i hlt
    obtain ⟨hdiv, hmod⟩ := div_mod_double_of_lt (n := 2 ^ s.p - 1) (e := 1) hd (by rw [← h.r2]; omega)
    rw [hdiv, hmod, toNat_double, toNat_double_add_one, hq2, ← h.r2, Bool.or_eq_true, hadd, decide_eq_true_eq,
      hhalf, hq2]
    exact ⟨by omega, by omega, by omega⟩

/-- A round of the unsigned search keeps its invariant. -/
theorem UnsignedInv.step (hd : 0 < d.toNat) (hnc : 0 < nc.toNat) :
    UnsignedInv d.toNat nc.toNat (magicU64Step d nc s) :=
  ⟨(h.step_nc hnc).1, (h.step_nc hnc).2, (h.step_d hd).1, (h.step_d hd).2.1, (h.step_d hd).2.2⟩

/-- `delta` of the unsigned loop. -/
theorem UnsignedInv.delta (hd : 0 < d.toNat) : (d - 1 - s.r2).toNat = d.toNat - 1 - (2 ^ s.p - 1) % d.toNat := by
  have hr2 : s.r2.toNat < d.toNat := h.r2 ▸ Nat.mod_lt _ hd
  have hone : (1 : BitVec 64).toNat = 1 := rfl
  rw [toNat_sub, toNat_sub, hone, ← h.r2]
  omega

end

/-- Whether the search goes on. -/
theorem MagicState.short_iff (s : MagicState) (delta : BitVec 64) :
    s.short delta = true ↔ s.q1.toNat < delta.toNat ∨ (s.q1.toNat = delta.toNat ∧ s.r1.toNat = 0) := by
  rw [MagicState.short, decide_eq_true_eq, lt_def, toNat_inj, ← toNat_inj (y := 0)]
  rfl

/-- The loop goes on because `2 ^ p` is too small, or because the quotient of `2 ^ p` has wrapped. -/
theorem UnsignedInv.le_of_short (h : UnsignedInv d.toNat nc.toNat s) (hd : 0 < d.toNat)
    (hnc : 0 < nc.toNat) (hshort : s.short (d - 1 - s.r2) = true) :
    2 ^ 64 ≤ 2 ^ s.p / nc.toNat ∨ 2 ^ s.p ≤ nc.toNat * (d.toNat - 1) := by
  rw [MagicState.short_iff, h.delta hd, h.q1, h.r1] at hshort
  rcases Nat.lt_or_ge (2 ^ s.p / nc.toNat) (2 ^ 64) with hlt | hge
  · right
    have hsplit := Nat.div_add_mod (2 ^ s.p) nc.toNat
    rcases hshort with hless | ⟨heq, hzero⟩
    · calc 2 ^ s.p ≤ nc.toNat * (2 ^ s.p / nc.toNat + 1) := by
            have := Nat.mod_lt (2 ^ s.p) hnc
            rw [Nat.mul_add]
            omega
        _ ≤ nc.toNat * (d.toNat - 1) := Nat.mul_le_mul_left _ (by omega)
    · calc 2 ^ s.p = nc.toNat * (2 ^ s.p / nc.toNat) := by omega
        _ ≤ nc.toNat * (d.toNat - 1) := Nat.mul_le_mul_left _ (by omega)
  · exact .inl hge

/-- The loop ends because `2 ^ p` is large enough, also when the quotient of `2 ^ p` has wrapped. -/
theorem UnsignedInv.lt_of_not_short (h : UnsignedInv d.toNat nc.toNat s) (hd : 0 < d.toNat)
    (hnc : 0 < nc.toNat) (hshort : ¬ s.short (d - 1 - s.r2) = true) :
    (d.toNat - 1 - (2 ^ s.p - 1) % d.toNat) * nc.toNat < 2 ^ s.p := by
  rw [MagicState.short_iff, h.delta hd, h.q1, h.r1] at hshort
  generalize d.toNat - 1 - (2 ^ s.p - 1) % d.toNat = delta at *
  have hsplit := Nat.div_add_mod (2 ^ s.p) nc.toNat
  have hmod : 2 ^ s.p / nc.toNat % 2 ^ 64 ≤ 2 ^ s.p / nc.toNat := Nat.mod_le _ _
  rcases Nat.lt_or_ge delta (2 ^ s.p / nc.toNat) with hlt | hge
  · calc delta * nc.toNat < (delta + 1) * nc.toNat := Nat.mul_lt_mul_of_pos_right (Nat.lt_succ_self _) hnc
      _ ≤ 2 ^ s.p / nc.toNat * nc.toNat := Nat.mul_le_mul_right _ hlt
      _ ≤ 2 ^ s.p := Nat.div_mul_le_self _ _
  · have heq : delta = 2 ^ s.p / nc.toNat := by omega
    rw [heq, Nat.mul_comm]
    omega

/-- `nc`, the largest word that is one less than a multiple of the divisor. -/
structure UnsignedBound (d nc : ℕ) : Prop where
  dvd : d ∣ nc + 1
  lt : nc < 2 ^ 64
  ge : 2 ^ 63 ≤ nc
  reach : 2 ^ 64 ≤ nc + d

/-- The bound that the unsigned search works with. -/
theorem unsignedBound {d : BitVec 64} (hd : 0 < d.toNat) :
    UnsignedBound d.toNat (allOnes 64 - (0 - d) % d).toNat := by
  have hd' := d.isLt
  have hneg : ((0 : BitVec 64) - d).toNat = 2 ^ 64 - d.toNat := by
    simp
    omega
  have hrem : (2 ^ 64 - d.toNat) % d.toNat = 2 ^ 64 % d.toNat := (Nat.mod_eq_sub_mod hd'.le).symm
  have hlt : 2 ^ 64 % d.toNat < d.toNat := Nat.mod_lt _ hd
  have hle : 2 ^ 64 % d.toNat + d.toNat ≤ 2 ^ 64 := by
    have := Nat.mod_le (2 ^ 64 - d.toNat) d.toNat
    omega
  have hnc : (allOnes 64 - (0 - d) % d).toNat = 2 ^ 64 - 1 - 2 ^ 64 % d.toNat := by
    rw [toNat_sub, toNat_umod, hneg, hrem, toNat_allOnes]
    omega
  rw [hnc]
  refine ⟨?_, by omega, by omega, by omega⟩
  rw [show 2 ^ 64 - 1 - 2 ^ 64 % d.toNat + 1 = 2 ^ 64 - 2 ^ 64 % d.toNat by omega]
  exact Nat.dvd_sub_mod _

/-- The multiplier of the next round has at most 65 bits. -/
theorem UnsignedInv.next_lt (h : UnsignedInv d.toNat nc.toNat s) (hbound : UnsignedBound d.toNat nc.toNat)
    (hd : 0 < d.toNat) (hp : s.p < 128) (hgo : s.p = 63 ∨ s.short (d - 1 - s.r2) = true) :
    (2 ^ (s.p + 1) - 1) / d.toNat + 1 < 2 ^ 65 := by
  have hnc : 0 < nc.toNat := by have := hbound.ge; omega
  rcases hgo with hfirst | hshort
  · rw [hfirst]
    have := Nat.div_le_self (2 ^ (63 + 1) - 1) d.toNat
    omega
  · rcases h.le_of_short hd hnc hshort with hwrap | hle
    · -- the quotient has wrapped: only `p = 127` and `nc = 2 ^ 63` are left
      have hpow : 2 ^ s.p ≤ 2 ^ 127 := Nat.pow_le_pow_right (by decide) (by omega)
      have hle : 2 ^ 64 * nc.toNat ≤ 2 ^ s.p := (Nat.le_div_iff_mul_le hnc).mp hwrap
      have hge := hbound.ge
      have hnc63 : nc.toNat = 2 ^ 63 := by omega
      have hd63 : d.toNat ≠ 2 ^ 63 := by
        intro heq
        have := hbound.dvd
        rw [hnc63, heq] at this
        exact absurd this (by decide)
      have hreach := hbound.reach
      have hQ : (2 ^ (s.p + 1) - 1) / d.toNat < 2 ^ 65 - 1 := by
        rw [Nat.div_lt_iff_lt_mul hd, pow_succ]
        omega
      omega
    · have hQ : (2 ^ (s.p + 1) - 1) / d.toNat < 2 * nc.toNat := by
        rw [Nat.div_lt_iff_lt_mul hd, pow_succ]
        have : nc.toNat * (d.toNat - 1) = nc.toNat * d.toNat - nc.toNat := by rw [Nat.mul_sub, Nat.mul_one]
        have : 2 * nc.toNat * d.toNat = 2 * (nc.toNat * d.toNat) := by ring
        have := Nat.le_mul_of_pos_right nc.toNat hd
        omega
      omega

/-- The unsigned loop ends, at a power that is large enough, with a multiplier of at most 65 bits. -/
theorem magicU64Loop_spec (hbound : UnsignedBound d.toNat nc.toNat) (hd : 0 < d.toNat) :
    ∀ (fuel : ℕ) {s : MagicState}, UnsignedInv d.toNat nc.toNat s → 63 ≤ s.p → s.p < 128 → 128 ≤ s.p + fuel →
      (s.p = 63 ∨ s.short (d - 1 - s.r2) = true) →
      ∃ s', magicU64Loop d nc fuel s = some s' ∧ UnsignedInv d.toNat nc.toNat s' ∧ 64 ≤ s'.p ∧ s'.p ≤ 128 ∧
        (d.toNat - 1 - (2 ^ s'.p - 1) % d.toNat) * nc.toNat < 2 ^ s'.p ∧
        (2 ^ s'.p - 1) / d.toNat + 1 < 2 ^ 65
  | 0, s, _, _, hlt, hfuel, _ => absurd hfuel (by omega)
  | fuel + 1, s, h, hge, hlt, hfuel, hgo => by
    have hnc : 0 < nc.toNat := by have := hbound.ge; omega
    have hnext := h.step hd hnc
    have hp : (magicU64Step d nc s).p = s.p + 1 := rfl
    have hsmall := h.next_lt hbound hd hlt hgo
    rw [← hp] at hsmall
    generalize hs' : magicU64Step d nc s = s' at *
    rw [magicU64Loop]
    simp only [hs']
    split
    · rename_i hcontinue
      exact magicU64Loop_spec hbound hd fuel hnext (by omega) hcontinue.1 (by omega) (.inr hcontinue.2)
    · rename_i hstop
      refine ⟨s', rfl, hnext, by omega, by omega, ?_, hsmall⟩
      by_cases hlast : s'.p < 128
      · exact hnext.lt_of_not_short hd hnc fun hshort => hstop ⟨hlast, hshort⟩
      · have hp' : s'.p = 128 := by omega
        rw [hp']
        have hdelta : d.toNat - 1 - (2 ^ 128 - 1) % d.toNat ≤ 2 ^ 64 := by
          omega
        calc (d.toNat - 1 - (2 ^ 128 - 1) % d.toNat) * nc.toNat ≤ 2 ^ 64 * nc.toNat :=
              Nat.mul_le_mul_right _ hdelta
          _ < 2 ^ 64 * 2 ^ 64 := Nat.mul_lt_mul_of_pos_left hbound.lt (by decide)
          _ = 2 ^ 128 := by norm_num

end

/-- What the unsigned magic number is for: quotients of 64-bit dividends, by shifts in range. -/
structure UnsignedMagic (d M s : ℕ) : Prop where
  div : ∀ m < 2 ^ 64, m * M / 2 ^ (64 + s) = m / d
  lt : M < 2 ^ 65
  shift : M < 2 ^ 64 → s ≤ 63
  shift_add : 2 ^ 64 ≤ M → 1 ≤ s ∧ s ≤ 64

/-- The unsigned search finds a multiplier and a shift that divide exactly. -/
theorem cgMagicU64_spec {d : BitVec 64} (hd : 2 ≤ d.toNat) :
    ∃ M s, cgMagicU64 d = some (BitVec.ofNat 64 M, s, decide (2 ^ 64 ≤ M)) ∧ UnsignedMagic d.toNat M s := by
  have hpos : 0 < d.toNat := by omega
  have hd' := d.isLt
  have hbound := unsignedBound hpos
  generalize hnc : allOnes 64 - (0 - d) % d = nc at hbound
  have hsub : (two63 - 1).toNat = 2 ^ 63 - 1 := by decide
  have hinit : UnsignedInv d.toNat nc.toNat
      { p := 63, q1 := two63 / nc, r1 := two63 - two63 / nc * nc,
        q2 := (two63 - 1) / d, r2 := (two63 - 1) - (two63 - 1) / d * d } := by
    have hq1 : 2 ^ 63 / nc.toNat ≤ 2 ^ 63 := Nat.div_le_self _ _
    have hq2 : (2 ^ 63 - 1) / d.toNat ≤ 2 ^ 63 - 1 := Nat.div_le_self _ _
    refine ⟨?_, ?_, ?_, ?_, ?_⟩
    · show (two63 / nc).toNat = 2 ^ 63 / nc.toNat % 2 ^ 64
      rw [toNat_udiv, two63_toNat, Nat.mod_eq_of_lt (by omega)]
    · rw [toNat_sub_div_mul, two63_toNat]
    · show ((two63 - 1) / d).toNat = (2 ^ 63 - 1) / d.toNat % 2 ^ 64
      rw [toNat_udiv, hsub, Nat.mod_eq_of_lt (by omega)]
    · rw [toNat_sub_div_mul, hsub]
    · show false = true ↔ 2 ^ 64 ≤ (2 ^ 63 - 1) / d.toNat + 1
      exact ⟨fun h => absurd h (by simp), fun h => absurd h (by omega)⟩
  obtain ⟨s, hloop, hinv, hge, hle, hdelta, hlt⟩ :=
    magicU64Loop_spec hbound hpos 65 hinit le_rfl (by simp) (by simp) (.inl rfl)
  obtain ⟨k, hk⟩ : ∃ k, s.p = 64 + k := ⟨s.p - 64, by omega⟩
  have hsplit := Nat.div_add_mod (2 ^ s.p - 1) d.toNat
  have hrem := Nat.mod_lt (2 ^ s.p - 1) hpos
  -- the multiplier times the divisor is the power and `delta`
  have hM : ((2 ^ s.p - 1) / d.toNat + 1) * d.toNat = 2 ^ s.p + (d.toNat - 1 - (2 ^ s.p - 1) % d.toNat) := by
    rw [Nat.add_mul, Nat.one_mul, Nat.mul_comm]
    omega
  refine ⟨(2 ^ s.p - 1) / d.toNat + 1, k, ?_, fun m hm => ?_, hlt, fun hsmall => ?_, fun hlarge => ?_⟩
  · have hq2 : s.q2 + 1 = BitVec.ofNat 64 ((2 ^ s.p - 1) / d.toNat + 1) := by
      apply eq_of_toNat_eq
      rw [toNat_add, hinv.q2, toNat_ofNat]
      simp
    have hadd : s.addout = decide (2 ^ 64 ≤ (2 ^ s.p - 1) / d.toNat + 1) := by
      rw [Bool.eq_iff_iff, decide_eq_true_eq]
      exact hinv.addout
    simp only [cgMagicU64, hnc]
    rw [hloop, Option.map_some, hq2, hadd, show s.p - 64 = k by omega]
  · rw [← hk]
    have := hbound.reach
    exact magic_div hM hbound.dvd hdelta (by omega)
  · -- with shift 64 the multiplier would be above `2 ^ 64`
    by_contra hshift
    have hk64 : s.p = 128 := by omega
    rw [hk64] at hM hsmall
    have := Nat.mul_lt_mul_of_pos_right hsmall hpos
    omega
  · refine ⟨?_, by omega⟩
    by_contra hshift
    have hk0 : s.p = 64 := by omega
    rw [hk0] at hM hlarge
    have := Nat.mul_le_mul_right d.toNat hlarge
    omega

/-! ## The signed loop -/

/-- The numbers of a state of the signed loop. -/
structure SignedInv (ad anc : ℕ) (s : MagicState) : Prop where
  q1 : s.q1.toNat = 2 ^ s.p / anc
  r1 : s.r1.toNat = 2 ^ s.p % anc
  q2 : s.q2.toNat = 2 ^ s.p / ad
  r2 : s.r2.toNat = 2 ^ s.p % ad

/-- The divisor and `anc`, the largest dividend that is one less than a multiple of it. -/
structure SignedBound (ad anc : ℕ) : Prop where
  three_le : 3 ≤ ad
  lt : ad < 2 ^ 63
  not_dvd : ∀ p, 2 ^ p % ad ≠ 0
  dvd : ad ∣ anc + 1
  le : anc ≤ 2 ^ 63

/-- The bound of the signed search is large enough. -/
theorem SignedBound.pred_le {ad anc : ℕ} (h : SignedBound ad anc) : ad - 1 ≤ anc := by
  have := Nat.le_of_dvd (Nat.succ_pos anc) h.dvd
  omega

section

variable {ad anc : BitVec 64} {s : MagicState}

/-- One pair of the signed loop. -/
theorem signed_pair_step {q r y : BitVec 64} {n : ℕ} (hy : 0 < y.toNat) (hy' : y.toNat ≤ 2 ^ 63)
    (hq : q.toNat = n / y.toNat) (hr : r.toNat = n % y.toNat) (hlt : 2 * n / y.toNat < 2 ^ 64) :
    (if y ≤ r <<< 1 then q <<< 1 + 1 else q <<< 1).toNat = 2 * n / y.toNat ∧
      (if y ≤ r <<< 1 then r <<< 1 - y else r <<< 1).toNat = 2 * n % y.toNat := by
  have hrlt : r.toNat < y.toNat := hr ▸ Nat.mod_lt _ hy
  have hdouble : (r <<< 1).toNat = 2 * r.toNat := by
    rw [toNat_shiftLeft, Nat.shiftLeft_eq]
    omega
  have hshift : (q <<< 1).toNat = 2 * q.toNat % 2 ^ 64 := by
    rw [toNat_shiftLeft, Nat.shiftLeft_eq]
    omega
  have hone : (1 : BitVec 64).toNat = 1 := rfl
  split
  · rename_i hge
    rw [le_def, hdouble] at hge
    obtain ⟨hdiv, hmod⟩ := div_mod_double_of_ge (n := n) (Nat.zero_le 1) hy (hr ▸ hge)
    rw [Nat.add_zero] at hdiv hmod
    rw [hdiv, hmod, toNat_add, toNat_sub, hdouble, hshift, hone, hq, hr]
    omega
  · rename_i hlow
    rw [le_def, hdouble] at hlow
    obtain ⟨hdiv, hmod⟩ := div_mod_double_of_lt (n := n) (e := 0) hy (by rw [← hr]; omega)
    rw [Nat.add_zero] at hdiv hmod
    omega

/-- The loop goes on because `2 ^ p` is too small. -/
theorem SignedInv.short_iff (h : SignedInv ad.toNat anc.toNat s) (had : 0 < ad.toNat) (hanc : 0 < anc.toNat) :
    s.short (ad - s.r2) = true ↔ 2 ^ s.p ≤ anc.toNat * (ad.toNat - 2 ^ s.p % ad.toNat) := by
  have hr2 : s.r2.toNat < ad.toNat := h.r2 ▸ Nat.mod_lt _ had
  have hr1 := Nat.mod_lt (2 ^ s.p) hanc
  have hsplit := Nat.div_add_mod (2 ^ s.p) anc.toNat
  have hdelta : (ad - s.r2).toNat = ad.toNat - 2 ^ s.p % ad.toNat := by
    rw [toNat_sub, ← h.r2]
    omega
  rw [MagicState.short_iff, hdelta, h.q1, h.r1]
  generalize ad.toNat - 2 ^ s.p % ad.toNat = delta
  constructor
  · rintro (hlt | ⟨heq, hzero⟩)
    · calc 2 ^ s.p ≤ anc.toNat * (2 ^ s.p / anc.toNat + 1) := by
            rw [Nat.mul_add]
            omega
        _ ≤ anc.toNat * delta := Nat.mul_le_mul_left _ hlt
    · rw [← heq]
      omega
  · intro hle
    rcases Nat.lt_trichotomy (2 ^ s.p / anc.toNat) delta with hlt | heq | hgt
    · exact .inl hlt
    · rw [heq] at hsplit
      exact .inr ⟨heq, by omega⟩
    · have := Nat.mul_le_mul_left anc.toNat (Nat.succ_le_of_lt hgt)
      rw [Nat.mul_succ] at this
      omega

/-- The quotients of the next round fit in a word. -/
theorem SignedInv.next_lt (h : SignedInv ad.toNat anc.toNat s) (hbound : SignedBound ad.toNat anc.toNat)
    (hgo : s.p = 63 ∨ s.short (ad - s.r2) = true) :
    2 * 2 ^ s.p / anc.toNat < 2 ^ 64 ∧ 2 * 2 ^ s.p / ad.toNat + 1 < 2 ^ 64 := by
  have hthree := hbound.three_le
  have hpred := hbound.pred_le
  have hanc : 0 < anc.toNat := by omega
  have had : 0 < ad.toNat := by omega
  have hlt := hbound.lt
  have hle := hbound.le
  rcases hgo with hfirst | hshort
  · rw [hfirst]
    have h1 : 2 * 2 ^ 63 / anc.toNat < 2 ^ 64 := by
      rw [Nat.div_lt_iff_lt_mul hanc]
      omega
    have h2 : 2 * 2 ^ 63 / ad.toNat < 2 ^ 63 := by
      rw [Nat.div_lt_iff_lt_mul had]
      omega
    omega
  · rw [h.short_iff had hanc] at hshort
    have hne := hbound.not_dvd s.p
    have hsmall : 2 ^ s.p ≤ anc.toNat * (ad.toNat - 1) :=
      hshort.trans (Nat.mul_le_mul_left _ (by omega))
    rw [Nat.mul_sub, Nat.mul_one] at hsmall
    have hprod := Nat.le_mul_of_pos_right anc.toNat had
    have h1 : 2 * 2 ^ s.p / anc.toNat < 2 * ad.toNat := by
      rw [Nat.div_lt_iff_lt_mul hanc]
      have : 2 * ad.toNat * anc.toNat = 2 * (anc.toNat * ad.toNat) := by ring
      omega
    have h2 : 2 * 2 ^ s.p / ad.toNat < 2 * anc.toNat - 1 := by
      rw [Nat.div_lt_iff_lt_mul had, Nat.sub_mul]
      have : 2 * anc.toNat * ad.toNat = 2 * (anc.toNat * ad.toNat) := by ring
      omega
    omega

/-- A round of the signed search keeps its invariant. -/
theorem SignedInv.step (h : SignedInv ad.toNat anc.toNat s) (hbound : SignedBound ad.toNat anc.toNat)
    (hgo : s.p = 63 ∨ s.short (ad - s.r2) = true) : SignedInv ad.toNat anc.toNat (magicS64Step ad anc s) := by
  have hthree := hbound.three_le
  have hpred := hbound.pred_le
  obtain ⟨hlt1, hlt2⟩ := h.next_lt hbound hgo
  have hpow : 2 ^ (s.p + 1) = 2 * 2 ^ s.p := by ring
  obtain ⟨hq1, hr1⟩ := signed_pair_step (by omega) hbound.le h.q1 h.r1 hlt1
  obtain ⟨hq2, hr2⟩ := signed_pair_step (by omega) hbound.lt.le h.q2 h.r2 (by omega)
  exact ⟨hpow ▸ hq1, hpow ▸ hr1, hpow ▸ hq2, hpow ▸ hr2⟩

/-- The signed loop ends, at a power that is large enough, with a multiplier of at most 64 bits. -/
theorem magicS64Loop_spec (hbound : SignedBound ad.toNat anc.toNat) :
    ∀ (fuel : ℕ) {s : MagicState}, SignedInv ad.toNat anc.toNat s → 63 ≤ s.p → s.p < 126 → 126 ≤ s.p + fuel →
      (s.p = 63 ∨ s.short (ad - s.r2) = true) →
      ∃ s', magicS64Loop ad anc fuel s = some s' ∧ SignedInv ad.toNat anc.toNat s' ∧ 64 ≤ s'.p ∧ s'.p ≤ 126 ∧
        (ad.toNat - 2 ^ s'.p % ad.toNat) * anc.toNat < 2 ^ s'.p ∧ 2 ^ s'.p / ad.toNat + 1 < 2 ^ 64
  | 0, s, _, _, hlt, hfuel, _ => absurd hfuel (by omega)
  | fuel + 1, s, h, hge, hlt, hfuel, hgo => by
    have hthree := hbound.three_le
    have hpred := hbound.pred_le
    have hnext := h.step hbound hgo
    have hp : (magicS64Step ad anc s).p = s.p + 1 := rfl
    have hsmall := (h.next_lt hbound hgo).2
    rw [← pow_succ', ← hp] at hsmall
    generalize hs' : magicS64Step ad anc s = s' at *
    have hshort := hnext.short_iff (by omega) (by omega)
    rw [magicS64Loop]
    simp only [hs']
    split
    · rename_i hcontinue
      have hle := hshort.mp hcontinue
      have hpow : 2 ^ s'.p < 2 ^ 126 := by
        calc 2 ^ s'.p ≤ anc.toNat * (ad.toNat - 2 ^ s'.p % ad.toNat) := hle
          _ ≤ 2 ^ 63 * (ad.toNat - 2 ^ s'.p % ad.toNat) := Nat.mul_le_mul_right _ hbound.le
          _ < 2 ^ 63 * 2 ^ 63 := Nat.mul_lt_mul_of_pos_left (by have := hbound.lt; omega) (by decide)
          _ = 2 ^ 126 := by norm_num
      have hp' : s'.p < 126 := (Nat.pow_lt_pow_iff_right (by decide)).mp hpow
      exact magicS64Loop_spec hbound fuel hnext (by omega) hp' (by omega) (.inr hcontinue)
    · rename_i hstop
      refine ⟨s', rfl, hnext, by omega, by omega, ?_, hsmall⟩
      rw [hshort] at hstop
      rw [Nat.mul_comm]
      omega

end

/-- What the signed magic number is for: truncating quotients of the numbers up to `2 ^ 63`, short of the one
that no dividend takes. -/
structure SignedMagic (negative : Bool) (e M s : ℕ) : Prop where
  tdiv : ∀ x : ℤ, (-2 ^ 63 < x ∨ negative = false) → -2 ^ 63 ≤ x → (x < 2 ^ 63 ∨ negative = true) → x ≤ 2 ^ 63 →
    x * M / (2 ^ (64 + s) : ℕ) + (if x * M / (2 ^ (64 + s) : ℕ) < 0 then 1 else 0) = x.tdiv e
  lt : M < 2 ^ 64
  shift : s ≤ 62

/-- The largest dividend is `t - 1`, or `t` when it is negative and `t` is `2 ^ 63`. -/
theorem signedMagic {e t p M : ℕ} {negative : Bool} (hbound : SignedBound e (t - 1 - t % e))
    (ht : t = if negative then 2 ^ 63 + 1 else 2 ^ 63) (hp : 63 ≤ p)
    (hM : M * e = 2 ^ p + (e - 2 ^ p % e)) (hdelta : (e - 2 ^ p % e) * (t - 1 - t % e) < 2 ^ p) (x : ℤ)
    (hlo : -2 ^ 63 < x ∨ negative = false) (hlo' : -2 ^ 63 ≤ x) (hhi : x < 2 ^ 63 ∨ negative = true)
    (hhi' : x ≤ 2 ^ 63) :
    x * M / (2 ^ p : ℕ) + (if x * M / (2 ^ p : ℕ) < 0 then 1 else 0) = x.tdiv e := by
  have hthree := hbound.three_le
  have hpos : 0 < e := by omega
  have hmod := Nat.mod_lt t hpos
  have herror : 0 < e - 2 ^ p % e := by
    have := Nat.mod_lt (2 ^ p) hpos
    omega
  have hteq : 2 ^ 63 ≤ t := by
    rw [ht]
    split <;> omega
  refine magic_tdiv (Nat.two_pow_pos p) (fun hx => ⟨magic_ge hM, ?_⟩) (fun hx => ⟨magic_gt hM herror (by omega), ?_⟩)
  · refine magic_lt hM hbound.dvd hdelta ?_
    have : x.natAbs ≤ t - 1 := by
      rcases hhi with h | h
      · omega
      · rw [ht, if_pos h]
        omega
    omega
  -- below the bound the estimate is exact; the one dividend above it is the smallest
  · by_cases hlast : x.natAbs < t - 1 - t % e + e
    · exact (magic_lt hM hbound.dvd hdelta hlast).le
    · -- the dividend is `-2 ^ 63`, and one more is a multiple of `e`
      have hxt : x.natAbs = t ∧ t % e = e - 1 ∧ t = 2 ^ 63 := by
        cases negative with
        | true =>
          omega
        | false =>
          omega
      obtain ⟨hx, hrem, ht63⟩ := hxt
      have hdvd : e ∣ 2 ^ 63 + 1 := by
        rw [← ht63, Nat.dvd_iff_mod_eq_zero, Nat.add_mod, hrem, Nat.mod_eq_of_lt (by omega : 1 < e)]
        rw [show e - 1 + 1 = e by omega, Nat.mod_self]
      have hle := magic_error_le (k := 2 ^ (p - 63)) hpos hdvd (Nat.two_pow_pos _)
      rw [← pow_add, show 63 + (p - 63) = p by omega] at hle
      refine magic_le hM hpos ?_
      rw [hx, ht63]
      calc (e - 2 ^ p % e) * 2 ^ 63 ≤ 2 ^ (p - 63) * 2 ^ 63 := Nat.mul_le_mul_right _ hle
        _ = 2 ^ p := by rw [← pow_add, show p - 63 + 63 = p by omega]

theorem not_dvd_two_pow {e : ℕ} (he : ¬ e.isPowerOfTwo) (p : ℕ) : 2 ^ p % e ≠ 0 := by
  intro h
  obtain ⟨k, -, hk⟩ := (Nat.dvd_prime_pow Nat.prime_two).mp (Nat.dvd_of_mod_eq_zero h)
  exact he ⟨k, hk⟩

/-- The absolute value of a word, the least one included. -/
theorem toNat_abs (d : BitVec 64) : (if d.slt 0 then -d else d).toNat = d.toInt.natAbs := by
  have hslt : d.slt 0 = true ↔ d.toInt < 0 := by rw [slt_iff_toInt_lt]; rfl
  split
  · rename_i h
    rw [hslt] at h
    rw [toNat_neg, toInt_eq_toNat_cond] at *
    split at h <;> omega
  · rename_i h
    rw [hslt] at h
    rw [toInt_eq_toNat_cond] at *
    split at h <;> omega

/-- The signed search finds a multiplier and a shift that divide exactly. -/
theorem cgMagicS64_spec {d : BitVec 64} (h0 : d ≠ 0) (hd : ¬ d.toInt.natAbs.isPowerOfTwo) :
    ∃ M s, cgMagicS64 d =
        some (if d.slt 0 then -BitVec.ofNat 64 M else BitVec.ofNat 64 M, s) ∧
      SignedMagic (d.slt 0) d.toInt.natAbs M s := by
  have habs := toNat_abs d
  generalize had : (if d.slt 0 then -d else d) = ad at habs
  -- 2^63 is a power of two, so the absolute value fits below it
  have hlt : ad.toNat < 2 ^ 63 := by
    have hle := le_two_mul_toInt (x := d)
    have hge := two_mul_toInt_lt (x := d)
    have hne : d.toInt.natAbs ≠ 2 ^ 63 := fun h => hd ⟨63, h⟩
    omega
  have hthree : 3 ≤ ad.toNat := by
    have hz : d.toInt.natAbs ≠ 0 := by
      rw [Int.natAbs_ne_zero]
      intro h
      exact h0 (eq_of_toInt_eq (by rw [h]; rfl))
    have h1 : d.toInt.natAbs ≠ 1 := fun h => hd ⟨0, h⟩
    have h2 : d.toInt.natAbs ≠ 2 := fun h => hd ⟨1, h⟩
    omega
  have hpos : 0 < ad.toNat := by omega
  -- `t` is 2^63, or one more for a negative divisor
  have ht : (two63 + d >>> 63).toNat = if d.slt 0 then 2 ^ 63 + 1 else 2 ^ 63 := by
    have hsign : (d >>> 63).toNat = if d.slt 0 then 1 else 0 := by
      have hslt : d.slt 0 = true ↔ d.toInt < 0 := by rw [slt_iff_toInt_lt]; rfl
      rw [toNat_ushiftRight, Nat.shiftRight_eq_div_pow]
      simp only [hslt, toInt_eq_toNat_cond]
      split <;> split <;> omega
    rw [toNat_add, two63_toNat, hsign]
    split <;> decide
  generalize hteq : two63 + d >>> 63 = t at ht
  have htle : t.toNat ≤ 2 ^ 63 + 1 := by
    rw [ht]
    split <;> omega
  have htge : 2 ^ 63 ≤ t.toNat := by
    rw [ht]
    split <;> omega
  have hmod := Nat.mod_lt t.toNat hpos
  have hanc : (t - 1 - t % ad).toNat = t.toNat - 1 - t.toNat % ad.toNat := by
    have hone : (1 : BitVec 64).toNat = 1 := rfl
    rw [toNat_sub, toNat_sub, toNat_umod, hone]
    omega
  -- `anc` is one less than a multiple of the divisor
  generalize hanceq : t - 1 - t % ad = anc at hanc
  have hbound : SignedBound ad.toNat anc.toNat := by
    refine ⟨hthree, hlt, not_dvd_two_pow (habs ▸ hd), ?_, by omega⟩
    rw [hanc, show t.toNat - 1 - t.toNat % ad.toNat + 1 = t.toNat - t.toNat % ad.toNat by omega]
    exact Nat.dvd_sub_mod _
  -- the quotients and remainders of 2^63, with which the loop starts
  have hinit : SignedInv ad.toNat anc.toNat
      { p := 63, q1 := two63 / anc, r1 := two63 - two63 / anc * anc,
        q2 := two63 / ad, r2 := two63 - two63 / ad * ad } := by
    refine ⟨?_, ?_, ?_, ?_⟩
    · rw [toNat_udiv, two63_toNat]
    · rw [toNat_sub_div_mul, two63_toNat]
    · rw [toNat_udiv, two63_toNat]
    · rw [toNat_sub_div_mul, two63_toNat]
  obtain ⟨s, hloop, hinv, hge, hle, hdelta, hsmall⟩ :=
    magicS64Loop_spec hbound 64 hinit le_rfl (by simp) (by simp) (.inl rfl)
  obtain ⟨k, hk⟩ : ∃ k, s.p = 64 + k := ⟨s.p - 64, by omega⟩
  have hsplit := Nat.div_add_mod (2 ^ s.p) ad.toNat
  have hrem := Nat.mod_lt (2 ^ s.p) hpos
  have hM : (2 ^ s.p / ad.toNat + 1) * ad.toNat = 2 ^ s.p + (ad.toNat - 2 ^ s.p % ad.toNat) := by
    rw [Nat.add_mul, Nat.one_mul, Nat.mul_comm]
    omega
  refine ⟨2 ^ s.p / ad.toNat + 1, k, ?_, ?_, hsmall, by omega⟩
  · have hq2 : s.q2 + 1 = BitVec.ofNat 64 (2 ^ s.p / ad.toNat + 1) := by
      apply eq_of_toNat_eq
      rw [toNat_add, hinv.q2, toNat_ofNat]
      rfl
    simp only [cgMagicS64, had, hteq, hanceq]
    rw [hloop, Option.map_some, hq2, show s.p - 64 = k by omega]
  · rw [← habs, ← hk]
    exact signedMagic (hanc ▸ hbound) ht (by omega) hM (hanc ▸ hdelta)

end Mettle.Mir

import Mettle.Mir.Divmod

/-!
# Division and remainder by a constant are exact

The instructions `mir_emit_const_divmod` emits leave the truncating quotient or remainder in the destination,
for every constant but zero and every dividend.
-/

open List Option Function

namespace Mettle.Mir

open Lib

/-! ## Words -/

theorem toInt_bounds (x : BitVec 64) : -2 ^ 63 ≤ x.toInt ∧ x.toInt < 2 ^ 63 := by
  have hle := BitVec.le_two_mul_toInt (x := x)
  have hlt := BitVec.two_mul_toInt_lt (x := x)
  omega

/-- An integer in range is not wrapped. -/
theorem toInt_ofInt_of_bounds {z : ℤ} (hlo : -2 ^ 63 ≤ z) (hhi : z < 2 ^ 63) : (BitVec.ofInt 64 z).toInt = z := by
  rw [BitVec.toInt_ofInt]
  exact Int.bmod_eq_of_le (by simpa using hlo) (by simpa using hhi)

theorem toInt_sshiftRight (x : BitVec 64) (n : ℕ) : (x.sshiftRight n).toInt = x.toInt / 2 ^ n := by
  rw [BitVec.toInt_sshiftRight, Int.shiftRight_eq_div_pow]
  norm_cast

/-- The sign bit of a word. -/
theorem ushiftRight_sign (x : BitVec 64) : x >>> 63 = BitVec.ofInt 64 (if x.toInt < 0 then 1 else 0) := by
  apply BitVec.eq_of_toNat_eq
  simp only [BitVec.toInt_eq_toNat_cond]
  split <;> split <;> simp <;> omega

variable {k d M s : ℕ} {C : BitVec 64}

/-- What `SAR` and `SHR` make of the sign: `2 ^ k - 1` below zero. -/
theorem sign_mask (x : BitVec 64) (hk : 1 ≤ k) (hk' : k ≤ 63) :
    (x.sshiftRight 63) >>> (64 - k) = BitVec.ofInt 64 (if x.toInt < 0 then 2 ^ k - 1 else 0) := by
  have hbounds := toInt_bounds x
  have hsign : x.sshiftRight 63 = BitVec.ofInt 64 (if x.toInt < 0 then -1 else 0) := by
    apply BitVec.eq_of_toInt_eq
    rw [toInt_sshiftRight]
    split
    · rw [toInt_ofInt_of_bounds (by norm_num) (by norm_num)]
      omega
    · rw [toInt_ofInt_of_bounds (by norm_num) (by norm_num)]
      omega
  rw [hsign]
  split
  · have hones : BitVec.ofInt 64 (-1) = BitVec.allOnes 64 := by decide
    have hpow : 2 ^ 64 = 2 ^ k * 2 ^ (64 - k) := by rw [← pow_add, show k + (64 - k) = 64 by omega]
    have hlt : 2 ^ k < 2 ^ 64 := Nat.pow_lt_pow_right (by decide) (by omega)
    have hpos : 0 < 2 ^ k := Nat.two_pow_pos k
    apply BitVec.eq_of_toNat_eq
    rw [hones, BitVec.toNat_ushiftRight, BitVec.toNat_allOnes, Nat.shiftRight_eq_div_pow]
    have hcast : (2 ^ k - 1 : ℤ) = ((2 ^ k - 1 : ℕ) : ℤ) := by
      push_cast [Nat.cast_sub hpos]
      rfl
    rw [hcast, BitVec.ofInt_natCast, BitVec.toNat_ofNat, Nat.mod_eq_of_lt (by omega)]
    have hD : 0 < 2 ^ (64 - k) := Nat.two_pow_pos _
    apply Nat.div_eq_of_lt_le
    · rw [Nat.sub_mul, ← hpow]
      omega
    · rw [Nat.sub_add_cancel hpos, ← hpow]
      omega
  · simp

theorem ofInt_sub (a b : ℤ) : BitVec.ofInt 64 (a - b) = BitVec.ofInt 64 a - BitVec.ofInt 64 b := by
  rw [Int.sub_eq_add_neg, BitVec.ofInt_add, BitVec.ofInt_neg, BitVec.sub_eq_add_neg]

/-- The signed quotient by `2 ^ k`. -/
theorem pow2_quotient (x : BitVec 64) (hk : 1 ≤ k) (hk' : k ≤ 63) :
    (x + (x.sshiftRight 63) >>> (64 - k)).sshiftRight k = BitVec.ofInt 64 (x.toInt.tdiv (2 ^ k)) := by
  have hbounds := toInt_bounds x
  have hpow : (0 : ℤ) < 2 ^ k := by positivity
  have hle : (2 : ℤ) ^ k ≤ 2 ^ 63 := pow_le_pow_right₀ (by norm_num) hk'
  have hsum : (x + (x.sshiftRight 63) >>> (64 - k)).toInt = x.toInt + (if x.toInt < 0 then 2 ^ k - 1 else 0) := by
    rw [sign_mask x hk hk']
    conv_lhs => rw [← BitVec.ofInt_toInt (x := x)]
    rw [← BitVec.ofInt_add, toInt_ofInt_of_bounds]
    · rw [BitVec.ofInt_toInt]
    · rw [BitVec.ofInt_toInt]
      split <;> omega
    · rw [BitVec.ofInt_toInt]
      split <;> omega
  rw [← BitVec.ofInt_toInt (x := BitVec.sshiftRight _ _), toInt_sshiftRight, hsum, ediv_bias hpow]

/-- The unsigned quotient by a 64-bit multiplier. -/
theorem unsigned_magic_quotient (h : UnsignedMagic d M s) (hM : M < 2 ^ 64) (x : BitVec 64) :
    mulhi true x (BitVec.ofNat 64 M) >>> s = BitVec.ofNat 64 (x.toNat / d) := by
  have hx := x.isLt
  have hprod : x.toNat * M / 2 ^ 64 < 2 ^ 64 := by
    rw [Nat.div_lt_iff_lt_mul (by decide)]
    exact Nat.mul_lt_mul'' hx hM
  apply BitVec.eq_of_toNat_eq
  rw [mulhi, if_pos rfl, BitVec.toNat_ushiftRight, BitVec.toNat_ofNat, BitVec.toNat_ofNat, BitVec.toNat_ofNat,
    Nat.mod_eq_of_lt hM, Nat.mod_eq_of_lt hprod, Nat.shiftRight_eq_div_pow, Nat.div_div_eq_div_mul, ← pow_add,
    h.div _ hx, Nat.mod_eq_of_lt (lt_of_le_of_lt (Nat.div_le_self _ _) hx)]

/-- The unsigned quotient by a 65-bit multiplier: the product and the dividend are averaged. -/
theorem unsigned_magic_quotient_add (h : UnsignedMagic d M s) (hM : 2 ^ 64 ≤ M) (x : BitVec 64) :
    (((x - mulhi true x (BitVec.ofNat 64 M)) >>> 1) + mulhi true x (BitVec.ofNat 64 M)) >>> (s - 1) =
      BitVec.ofNat 64 (x.toNat / d) := by
  have hx := x.isLt
  have hlt := h.lt
  obtain ⟨hs, hs'⟩ := h.shift_add hM
  obtain ⟨K, rfl⟩ : ∃ K, M = 2 ^ 64 + K := ⟨M - 2 ^ 64, by omega⟩
  have hK : K < 2 ^ 64 := by omega
  have hle : x.toNat * K / 2 ^ 64 ≤ x.toNat := by
    have := Nat.mul_le_mul_left x.toNat hK.le
    omega
  have ht : (mulhi true x (BitVec.ofNat 64 (2 ^ 64 + K))).toNat = x.toNat * K / 2 ^ 64 := by
    rw [mulhi, if_pos rfl, BitVec.toNat_ofNat, BitVec.toNat_ofNat, Nat.add_mod_left, Nat.mod_eq_of_lt hK,
      Nat.mod_eq_of_lt (by omega)]
  have hwhole : x.toNat * (2 ^ 64 + K) / 2 ^ 64 = x.toNat + x.toNat * K / 2 ^ 64 := by
    rw [Nat.mul_add, Nat.mul_comm x.toNat (2 ^ 64), Nat.mul_add_div (by decide)]
  have hdiv : (x.toNat + x.toNat * K / 2 ^ 64) / 2 / 2 ^ (s - 1) = x.toNat / d := by
    rw [← hwhole, Nat.div_div_eq_div_mul, ← pow_succ', show s - 1 + 1 = s by omega, Nat.div_div_eq_div_mul, ← pow_add]
    exact h.div _ hx
  apply BitVec.eq_of_toNat_eq
  rw [BitVec.toNat_ushiftRight, BitVec.toNat_add, BitVec.toNat_ushiftRight, BitVec.toNat_sub, ht,
    Nat.shiftRight_eq_div_pow, Nat.shiftRight_eq_div_pow, BitVec.toNat_ofNat,
    Nat.mod_eq_of_lt (lt_of_le_of_lt (Nat.div_le_self _ _) hx), ← hdiv]
  congr 1
  omega

example : cgMagicU64 7 = some (0x2492492492492493, 3, true) := by decide +kernel

theorem slt_zero_iff (x : BitVec 64) : x.slt 0 = true ↔ x.toInt < 0 := by
  rw [BitVec.slt_iff_toInt_lt]
  rfl

theorem zero_slt_iff (x : BitVec 64) : BitVec.slt 0 x = true ↔ 0 < x.toInt := by
  rw [BitVec.slt_iff_toInt_lt]
  rfl

/-- The signed reading of a multiplier. -/
theorem toInt_ofNat_cond (hM : M < 2 ^ 64) :
    (BitVec.ofNat 64 M).toInt = if M < 2 ^ 63 then (M : ℤ) else M - 2 ^ 64 := by
  rw [BitVec.toInt_eq_toNat_cond, BitVec.toNat_ofNat, Nat.mod_eq_of_lt hM]
  split <;> split <;> omega

/-- A negated multiplier as a signed word: those from `2 ^ 63` on come out positive, which is what the correction of
the signed quotient is for. -/
theorem toInt_neg_ofNat_cond (hM : M < 2 ^ 64) :
    (-BitVec.ofNat 64 M).toInt = if M ≤ 2 ^ 63 then -(M : ℤ) else 2 ^ 64 - M := by
  rw [BitVec.toInt_eq_toNat_cond, BitVec.toNat_neg, BitVec.toNat_ofNat, Nat.mod_eq_of_lt hM]
  rcases Nat.eq_zero_or_pos M with rfl | hpos
  · decide
  · omega

/-- The high half of a signed product is its quotient by `2 ^ 64`, rounded down. -/
theorem mulhi_signed (x m : BitVec 64) : mulhi false x m = BitVec.ofInt 64 (x.toInt * m.toInt / 2 ^ 64) := rfl

/-- The signed sequence: the high product, corrected by the dividend when the multiplier has the wrong sign. -/
def signedProduct (C x Mw : BitVec 64) : BitVec 64 :=
  if BitVec.slt 0 C ∧ Mw.slt 0 then mulhi false x Mw + x
  else if C.slt 0 ∧ BitVec.slt 0 Mw then mulhi false x Mw - x else mulhi false x Mw

/-- The corrected product for a positive constant. -/
theorem signedProduct_of_pos (hC : 0 < C.toInt) (hM : M < 2 ^ 64) (x : BitVec 64) :
    signedProduct C x (BitVec.ofNat 64 M) = BitVec.ofInt 64 (x.toInt * M / 2 ^ 64) := by
  have hMw := toInt_ofNat_cond hM
  simp only [signedProduct, slt_zero_iff, zero_slt_iff, hC, not_lt.mpr hC.le, true_and, false_and, if_false]
  split
  · rename_i hneg
    rw [if_neg (by intro h; rw [hMw, if_pos h] at hneg; omega)] at hMw
    rw [mulhi_signed, hMw, mul_sub, sub_eq_add_neg, ← neg_mul, Int.add_mul_ediv_right _ _ (by norm_num)]
    conv_lhs => rw [← BitVec.ofInt_toInt (x := x)]
    rw [← BitVec.ofInt_add, BitVec.ofInt_toInt]
    congr 1
    ring
  · rename_i hpos
    rw [if_pos (by by_contra h; rw [hMw, if_neg h] at hpos; omega)] at hMw
    rw [mulhi_signed, hMw]

/-- The corrected product for a negative constant. -/
theorem signedProduct_of_neg (hC : C.toInt < 0) (hM : M < 2 ^ 64) (x : BitVec 64) :
    signedProduct C x (-BitVec.ofNat 64 M) = BitVec.ofInt 64 (-x.toInt * M / 2 ^ 64) := by
  have hMw := toInt_neg_ofNat_cond hM
  simp only [signedProduct, slt_zero_iff, zero_slt_iff, hC, not_lt.mpr hC.le, true_and, false_and, if_false]
  split
  · rename_i hpos
    rw [if_neg (by intro h; rw [hMw, if_pos h] at hpos; omega)] at hMw
    have hsplit : x.toInt * (2 ^ 64 - M) = -x.toInt * M + x.toInt * 2 ^ 64 := by ring
    rw [mulhi_signed, hMw, hsplit, Int.add_mul_ediv_right _ _ (by norm_num)]
    conv_lhs => rw [← BitVec.ofInt_toInt (x := x)]
    rw [← ofInt_sub, BitVec.ofInt_toInt]
    congr 1
    ring
  · rename_i hneg
    rw [mulhi_signed, hMw]
    split
    · rw [mul_neg, neg_mul]
    · rename_i hlarge
      omega

/-- The signed quotient from the corrected product: a shift and the sign. -/
theorem signed_magic_quotient {x Q : BitVec 64} (hC : C ≠ 0) (h : SignedMagic (C.slt 0) C.toInt.natAbs M s)
    (hQ : Q = BitVec.ofInt 64 ((if C.slt 0 then -x.toInt else x.toInt) * M / 2 ^ 64)) :
    Q.sshiftRight s + Q.sshiftRight s >>> 63 = BitVec.ofInt 64 (x.toInt.tdiv C.toInt) := by
  have hbounds := toInt_bounds x
  have hM := h.lt
  have hCint : C.toInt ≠ 0 := fun h0 => hC (BitVec.eq_of_toInt_eq (by rw [h0]; rfl))
  -- with a negative divisor the dividend is negated instead
  generalize hy : (if C.slt 0 then -x.toInt else x.toInt) = y at hQ
  have hquot : x.toInt.tdiv C.toInt = y.tdiv C.toInt.natAbs := by
    rw [← hy]
    split
    · rename_i hneg
      rw [slt_zero_iff] at hneg
      rw [Int.neg_tdiv, ← Int.tdiv_neg]
      congr 1
      omega
    · rename_i hpos
      rw [slt_zero_iff] at hpos
      congr 1
      omega
  have hyle : -2 ^ 63 ≤ y ∧ y ≤ 2 ^ 63 := by
    rw [← hy]
    split <;> omega
  have htdiv := h.tdiv y (by
      rw [← hy]
      cases C.slt 0
      · exact .inr rfl
      · exact .inl (by simp; omega))
    hyle.1
    (by
      rw [← hy]
      cases C.slt 0
      · exact .inl (by simp; omega)
      · exact .inr rfl)
    hyle.2
  -- the high half of the product fits, so the shift is exact
  have hprod : -2 ^ 63 ≤ y * M / 2 ^ 64 ∧ y * M / 2 ^ 64 < 2 ^ 63 := by
    constructor
    · rw [Int.le_ediv_iff_mul_le (by norm_num)]
      nlinarith
    · rw [Int.ediv_lt_iff_lt_mul (by norm_num)]
      nlinarith
  have hshift : (Q.sshiftRight s).toInt = y * M / (2 ^ (64 + s) : ℕ) := by
    rw [toInt_sshiftRight, hQ, toInt_ofInt_of_bounds hprod.1 hprod.2, Int.ediv_ediv_of_nonneg (by norm_num),
      ← pow_add]
    norm_cast
  rw [ushiftRight_sign, hshift, hquot, ← htdiv, BitVec.ofInt_add, ← hshift, BitVec.ofInt_toInt]

/-! ## Sequences of instructions -/

section

variable (load : Operand → Regs → BitVec 64)

/-- The shift counts are immediates below 64. -/
def ShiftsInRange (insns : List Inst) : Prop :=
  ∀ i ∈ insns, (i.op = .shl ∨ i.op = .shr ∨ i.op = .sar) → i.b.kind = .imm ∧ 0 ≤ i.b.imm ∧ i.b.imm < 64

/-- From `regs`, the instructions leave `x` in register `v` and change no other register below `n`. -/
def Sets (insns : List Inst) (regs : Regs) (n v : ℤ) (x : BitVec 64) : Prop :=
  ShiftsInRange insns ∧ ∃ regs', executeAll load insns regs = some regs' ∧ regs' v = x ∧ ∀ u < n, u ≠ v → regs' u = regs u

variable {load} {regs : Regs} {n : ℤ} {Q A : Operand}

/-- Two sequences whose shift counts are in range, one after the other. -/
theorem ShiftsInRange.append {l₁ l₂ : List Inst} (h₁ : ShiftsInRange l₁) (h₂ : ShiftsInRange l₂) :
    ShiftsInRange (l₁ ++ l₂) := fun i hi =>
  (mem_append.mp hi).elim (h₁ i) (h₂ i)

variable {l : List Inst} {op : Opcode} {dst a b : Operand} {isUnsigned : Bool} {k : ℤ} {x : BitVec 64} {m : ℕ}

/-- An instruction before them, if its own count is in range. -/
theorem ShiftsInRange.cons (h : (op = .shl ∨ op = .shr ∨ op = .sar) → b.kind = .imm ∧ 0 ≤ b.imm ∧ b.imm < 64)
    (hl : ShiftsInRange l) : ShiftsInRange (emit1 op dst a b isUnsigned :: l) := by
  intro i hi
  rcases mem_cons.mp hi with rfl | hi
  · exact h
  · exact hl i hi

theorem ShiftsInRange.nil : ShiftsInRange [] := fun _ hi => absurd hi not_mem_nil

/-- An instruction that is no shift. -/
theorem ShiftsInRange.other {l : List Inst} {op : Opcode} {dst a b : Operand} {isUnsigned : Bool}
    (hl : ShiftsInRange l) (h : op ≠ .shl ∧ op ≠ .shr ∧ op ≠ .sar := by decide) :
    ShiftsInRange (emit1 op dst a b isUnsigned :: l) :=
  .cons (fun hop => (hop.elim h.1 fun hop => hop.elim h.2.1 h.2.2).elim) hl

/-- A shift by `k`. -/
theorem ShiftsInRange.shift (hl : ShiftsInRange l) (hlo : 0 ≤ k) (hhi : k < 64) :
    ShiftsInRange (emit1 op dst a (.ofImm k) isUnsigned :: l) :=
  .cons (fun _ => ⟨rfl, hlo, hhi⟩) hl

/-- Two sequences run one after the other. -/
theorem executeAll_append (l₁ l₂ : List Inst) (regs : Regs) :
    executeAll load (l₁ ++ l₂) regs = (executeAll load l₁ regs).bind (executeAll load l₂) := by
  induction l₁ generalizing regs with
  | nil => rfl
  | cons i l₁ ih =>
    show (i.executeInteger load regs).bind _ = ((i.executeInteger load regs).bind _).bind _
    rw [bind_assoc]
    congr 1
    funext regs₁
    exact ih regs₁

/-- The value of an operand of the pool. -/
theorem value_iconstOperand {iconsts : IConsts} (h : ∀ c ∈ iconsts, regs c.2 = c.1) (value : BitVec 64) :
    (iconstOperand iconsts value).value load regs = value := by
  unfold iconstOperand
  split
  · rename_i c hfind
    have hvalue := find?_some hfind
    rw [decide_eq_true_eq] at hvalue
    rw [← hvalue]
    exact h c (List.mem_of_find?_eq_some hfind)
  · exact BitVec.ofInt_toInt

/-- One instruction of a sequence. -/
theorem executeAll_emit1 {rest : List Inst} (hdst : dst.kind = .vreg)
    (hx : (emit1 op dst a b isUnsigned).compute (a.value load regs) (b.value load regs) = some x) :
    executeAll load (emit1 op dst a b isUnsigned :: rest) regs = executeAll load rest (update regs dst.vreg x) := by
  have hexec : (emit1 op dst a b isUnsigned).executeInteger load regs = some (update regs dst.vreg x) := by
    exact (if_pos hdst).trans (congrArg _ hx)
  show ((emit1 op dst a b isUnsigned).executeInteger load regs).bind _ = _
  rw [hexec]
  rfl

/-- An operand that is a register has the value of the register. -/
theorem value_vreg {o : Operand} (h : o.kind = .vreg) (regs : Regs) : o.value load regs = regs o.vreg := by
  rw [Operand.value, h]

theorem kind_ofVreg (v : ℤ) : (Operand.ofVreg v).kind = .vreg := rfl

theorem vreg_ofVreg (v : ℤ) : (Operand.ofVreg v).vreg = v := rfl

theorem natCast_63 : (63 : ℤ) = (63 : ℕ) := rfl

theorem natCast_1 : (1 : ℤ) = (1 : ℕ) := rfl

theorem shift_count (hk : k = m) (hm : m < 64) : (BitVec.ofInt 64 k).toNat % 64 = m := by
  rw [hk, BitVec.ofInt_natCast, BitVec.toNat_ofNat]
  omega

/-- A logical shift by a constant. -/
theorem compute_shr (hk : k = m) (hm : m < 64) :
    (emit1 .shr dst a b isUnsigned).compute x ((Operand.ofImm k).value load regs) = some (x >>> m) := by
  show some (x >>> ((BitVec.ofInt 64 k).toNat % 64)) = _
  rw [shift_count hk hm]

/-- An arithmetic shift by a constant. -/
theorem compute_sar (hk : k = m) (hm : m < 64) :
    (emit1 .sar dst a b isUnsigned).compute x ((Operand.ofImm k).value load regs) = some (x.sshiftRight m) := by
  show some (x.sshiftRight ((BitVec.ofInt 64 k).toNat % 64)) = _
  rw [shift_count hk hm]

example : (emit1 .sar {} {} {}).compute (-8) 1 = some (-4) := by decide +kernel

/-- A high product with a constant of the pool, which the pool's register holds or the operand is. -/
theorem compute_mulhi {iconsts : IConsts} (hpool : ∀ c ∈ iconsts, regs c.2 = c.1) (hA : A.kind = .vreg)
    (dst : Operand) (M : BitVec 64) (isUnsigned : Bool) :
    (emit1 .mulhi dst A (iconstOperand iconsts M) isUnsigned).compute (A.value load regs)
      ((iconstOperand iconsts M).value load regs) = some (mulhi isUnsigned (regs A.vreg) M) := by
  rw [value_iconstOperand hpool, value_vreg hA]
  rfl

/-- The signed quotient by a power of two: the bias makes the shift round towards zero, and a negative divisor negates
it. -/
theorem emitPow2QuotientSigned_sets (hQ : Q.kind = .vreg) (hA : A.kind = .vreg) (hAn : A.vreg < n)
    {k : ℕ} (hk : 1 ≤ k) (hk' : k ≤ 63) (C : BitVec 64) :
    Sets load (emitPow2QuotientSigned Q A k C n).1 regs n Q.vreg
      (if C.slt 0 then -BitVec.ofInt 64 ((regs A.vreg).toInt.tdiv (2 ^ k))
        else BitVec.ofInt 64 ((regs A.vreg).toInt.tdiv (2 ^ k))) := by
  -- the bias, in the second new register
  have hmask : ∃ regs₁ : Regs, executeAll load (if k = 1 then [emit1 .shr (.ofVreg (n + 1)) A (.ofImm 63) true]
      else [emit1 .sar (.ofVreg n) A (.ofImm 63),
        emit1 .shr (.ofVreg (n + 1)) (.ofVreg n) (.ofImm (64 - k)) true]) regs = some regs₁ ∧
      regs₁ (n + 1) = ((regs A.vreg).sshiftRight 63) >>> (64 - k) ∧ ∀ u < n, regs₁ u = regs u := by
    split
    · rename_i h1
      rw [executeAll_emit1 (kind_ofVreg _) (compute_shr natCast_63 (by decide)), value_vreg hA]
      refine ⟨_, rfl, ?_, fun u hu => update_of_ne (by simp [Operand.ofVreg]; omega) _ _⟩
      rw [sign_mask _ hk hk', h1]
      show update regs (n + 1) _ (n + 1) = _
      rw [update_self]
      exact ushiftRight_sign _
    · rw [executeAll_emit1 (kind_ofVreg _) (compute_sar natCast_63 (by decide)), value_vreg hA,
        executeAll_emit1 (kind_ofVreg _) (compute_shr (m := 64 - k) (by omega) (by omega))]
      refine ⟨_, rfl, ?_, fun u hu => ?_⟩
      · simp [Operand.ofVreg, Operand.value]
      · rw [update_of_ne, update_of_ne]
        all_goals
          simp only [Operand.ofVreg]
          omega
  obtain ⟨regs₁, hrun, hbias, hkeep⟩ := hmask
  have hquotient := pow2_quotient (regs A.vreg) hk hk'
  rw [← hbias, ← hkeep A.vreg hAn] at hquotient
  rw [← hkeep A.vreg hAn, ← hquotient]
  unfold Sets emitPow2QuotientSigned
  simp only
  refine ⟨?_, ?_⟩
  · refine .append (.append ?_ (.other (.shift .nil (by omega) (by omega)))) ?_
    · split
      · exact .shift .nil (by decide) (by decide)
      · exact .shift (.shift .nil (by omega) (by omega)) (by decide) (by decide)
    · split
      · exact .other .nil
      · exact .nil
  rw [append_assoc, executeAll_append, hrun, bind_some, cons_append, cons_append,
    nil_append, executeAll_emit1 hQ rfl, executeAll_emit1 hQ (compute_sar (m := k) rfl (by omega)),
    value_vreg hA, value_vreg hQ, update_self]
  split
  · rw [executeAll_emit1 hQ rfl, value_vreg hQ, update_self]
    refine ⟨_, rfl, update_self .., fun u hu hne => ?_⟩
    rw [update_of_ne hne, update_of_ne hne, update_of_ne hne, hkeep u hu]
  · refine ⟨_, rfl, update_self .., fun u hu hne => ?_⟩
    rw [update_of_ne hne, update_of_ne hne, hkeep u hu]

/-- The unsigned quotient by any other constant, with and without the addition that a multiplier of 65 bits needs. -/
theorem emitMagicQuotientUnsigned_sets {iconsts : IConsts} (hpool : ∀ c ∈ iconsts, regs c.2 = c.1)
    (hQ : Q.kind = .vreg) (hA : A.kind = .vreg) (hAn : A.vreg < n) {ad : BitVec 64} (had : 2 ≤ ad.toNat) :
    ∃ insns n', emitMagicQuotientUnsigned iconsts Q A ad n = some (insns, n') ∧ n ≤ n' ∧
      Sets load insns regs n Q.vreg (BitVec.ofNat 64 ((regs A.vreg).toNat / ad.toNat)) := by
  obtain ⟨M, s, hmagic, h⟩ := cgMagicU64_spec had
  unfold emitMagicQuotientUnsigned
  rw [hmagic, map_some]
  -- a magic number of 65 bits takes the extra addition
  by_cases hM : 2 ^ 64 ≤ M
  · obtain ⟨hs, hs'⟩ := h.shift_add hM
    simp only [hM, decide_true, if_true]
    refine ⟨_, _, rfl, by omega,
      .other (.other (.shift (.other (.shift .nil (by omega) (by omega))) (by decide) (by decide))), ?_⟩
    rw [executeAll_emit1 (kind_ofVreg _) (compute_mulhi hpool hA _ _ _), executeAll_emit1 (kind_ofVreg _) rfl,
      executeAll_emit1 (kind_ofVreg _) (compute_shr natCast_1 (by decide)),
      executeAll_emit1 (kind_ofVreg _) rfl,
      executeAll_emit1 hQ (compute_shr (m := s - 1) (by omega) (by omega))]
    refine ⟨_, rfl, ?_, fun u hu hne => ?_⟩
    · rw [update_self, ← unsigned_magic_quotient_add h hM]
      simp [Operand.value, Operand.ofVreg, hA, update, hAn.ne]
    · have hn : u ≠ n := hu.ne
      have hn' : u ≠ n + 1 := by omega
      rw [update_of_ne hne]
      simp only [Operand.ofVreg]
      rw [update_of_ne hn', update_of_ne hn', update_of_ne hn', update_of_ne hn]
  · have hs := h.shift (by omega)
    simp only [hM, decide_false]
    refine ⟨_, _, rfl, by omega, .other (.shift .nil (by omega) (by omega)), ?_⟩
    rw [executeAll_emit1 (kind_ofVreg _) (compute_mulhi hpool hA _ _ _),
      executeAll_emit1 hQ (compute_shr (m := s) rfl (by omega))]
    refine ⟨_, rfl, ?_, fun u hu hne => ?_⟩
    · rw [update_self, ← unsigned_magic_quotient h (by omega)]
      simp [Operand.value, Operand.ofVreg]
    · rw [update_of_ne hne, update_of_ne]
      simp only [Operand.ofVreg]
      omega

variable (load) in
/-- The correction of the signed sequence. -/
theorem signedProduct_sets (hQ : Q.kind = .vreg) (hA : A.kind = .vreg) (hQA : A.vreg ≠ Q.vreg)
    (C M : BitVec 64) (regs : Regs) :
    ∃ regs', executeAll load (if BitVec.slt 0 C ∧ M.slt 0 then [emit1 .add Q Q A]
        else if C.slt 0 ∧ BitVec.slt 0 M then [emit1 .sub Q Q A] else [])
          (update regs Q.vreg (mulhi false (regs A.vreg) M)) = some regs' ∧
      regs' Q.vreg = signedProduct C (regs A.vreg) M ∧ ∀ u, u ≠ Q.vreg → regs' u = regs u := by
  unfold signedProduct
  split
  · rw [executeAll_emit1 hQ rfl, value_vreg hQ, value_vreg hA, update_self, update_of_ne hQA]
    refine ⟨_, rfl, update_self .., fun u hu => ?_⟩
    rw [update_of_ne hu, update_of_ne hu]
  split
  · rw [executeAll_emit1 hQ rfl, value_vreg hQ, value_vreg hA, update_self, update_of_ne hQA]
    refine ⟨_, rfl, update_self .., fun u hu => ?_⟩
    rw [update_of_ne hu, update_of_ne hu]
  · exact ⟨_, rfl, update_self .., fun u hu => update_of_ne hu _ _⟩

variable (load) in
/-- The arithmetic shift of the signed sequence. -/
theorem shift_sets (hQ : Q.kind = .vreg) {s : ℕ} (hs : s ≤ 62) (regs : Regs) :
    ∃ regs', executeAll load (if 0 < s then [emit1 .sar Q Q (.ofImm s)] else []) regs = some regs' ∧
      regs' Q.vreg = (regs Q.vreg).sshiftRight s ∧ ∀ u, u ≠ Q.vreg → regs' u = regs u := by
  split
  · rw [executeAll_emit1 hQ (compute_sar (m := s) rfl (by omega)), value_vreg hQ]
    exact ⟨_, rfl, update_self .., fun u hu => update_of_ne hu _ _⟩
  · rename_i h0
    obtain rfl : s = 0 := by omega
    exact ⟨regs, rfl, (BitVec.sshiftRight_zero).symm, fun u _ => rfl⟩

/-- The signed quotient by any other constant. -/
theorem emitMagicQuotientSigned_sets {iconsts : IConsts} (hpool : ∀ c ∈ iconsts, regs c.2 = c.1)
    (hQ : Q.kind = .vreg) (hA : A.kind = .vreg) (hQn : Q.vreg < n) (hQA : A.vreg ≠ Q.vreg)
    {C : BitVec 64} (hC : C ≠ 0) (hpow : ¬ C.toInt.natAbs.isPowerOfTwo) :
    ∃ insns n', emitMagicQuotientSigned iconsts Q A C n = some (insns, n') ∧ n ≤ n' ∧
      Sets load insns regs n Q.vreg (BitVec.ofInt 64 ((regs A.vreg).toInt.tdiv C.toInt)) := by
  obtain ⟨M, s, hmagic, h⟩ := cgMagicS64_spec hC hpow
  unfold emitMagicQuotientSigned
  rw [hmagic, map_some]
  generalize hMw : (if C.slt 0 then -BitVec.ofNat 64 M else BitVec.ofNat 64 M) = Mw
  have hproduct : signedProduct C (regs A.vreg) Mw =
      BitVec.ofInt 64 ((if C.slt 0 then -(regs A.vreg).toInt else (regs A.vreg).toInt) * M / 2 ^ 64) := by
    rw [← hMw]
    split
    · rename_i hneg
      exact signedProduct_of_neg ((slt_zero_iff C).mp hneg) h.lt _
    · rename_i hpos
      have hne : C.toInt ≠ 0 := fun h0 => hC (BitVec.eq_of_toInt_eq (by rw [h0]; rfl))
      rw [slt_zero_iff] at hpos
      exact signedProduct_of_pos (by omega) h.lt _
  -- first the high half of the product, then the shift and the sign bit
  obtain ⟨regs₁, hrun₁, hvalue₁, hkeep₁⟩ := signedProduct_sets load hQ hA hQA C Mw regs
  obtain ⟨regs₂, hrun₂, hvalue₂, hkeep₂⟩ := shift_sets load hQ h.shift regs₁
  have hs := h.shift
  refine ⟨_, _, rfl, by omega, ?_, ?_⟩
  · refine .append (.append (.append (.other .nil) ?_) ?_) (.shift (.other .nil) (by decide) (by decide))
    · split
      · exact .other .nil
      split
      · exact .other .nil
      · exact .nil
    · split
      · exact .shift .nil (by omega) (by omega)
      · exact .nil
  rw [append_assoc, append_assoc, executeAll_append, executeAll_emit1 hQ (compute_mulhi hpool hA _ _ _)]
  show ∃ regs', executeAll load _ (update regs Q.vreg _) = _ ∧ _
  rw [executeAll_append, hrun₁, bind_some, executeAll_append, hrun₂, bind_some,
    executeAll_emit1 (kind_ofVreg _) (compute_shr natCast_63 (by decide)), executeAll_emit1 hQ rfl]
  refine ⟨_, rfl, ?_, fun u hu hne => ?_⟩
  · rw [update_self, value_vreg hQ, value_vreg hQ, value_vreg (kind_ofVreg n), update_of_ne,
      ← signed_magic_quotient hC h (hvalue₁.trans hproduct), hvalue₂]
    · exact congrArg _ (update_self ..)
    · simp only [Operand.ofVreg]
      omega
  · rw [update_of_ne hne, update_of_ne, hkeep₂ u hne, hkeep₁ u hne]
    simp only [Operand.ofVreg]
    omega

end

/-! ## Powers of two -/

/-- The loop counts the trailing zeros of a power of two. -/
theorem shiftLoop_pow {k fuel : ℕ} {t : BitVec 64} (ht : t.toNat = 2 ^ k) (hfuel : k < fuel) :
    shiftLoop fuel t = k := by
  have hone : (1 : BitVec 64).toNat = 1 := rfl
  induction k generalizing fuel t with
  | zero =>
    obtain ⟨fuel, rfl⟩ : ∃ f, fuel = f + 1 := ⟨fuel - 1, by omega⟩
    rw [shiftLoop, if_neg]
    rw [BitVec.lt_def, ht, hone]
    decide
  | succ k ih =>
    obtain ⟨fuel, rfl⟩ : ∃ f, fuel = f + 1 := ⟨fuel - 1, by omega⟩
    have hpos : 0 < 2 ^ k := Nat.two_pow_pos k
    rw [pow_succ] at ht
    rw [shiftLoop, if_pos, ih _ (by omega)]
    · rw [BitVec.toNat_ushiftRight, Nat.shiftRight_eq_div_pow, ht, pow_one, Nat.mul_div_cancel _ (by decide)]
    · rw [BitVec.lt_def, ht, hone]
      omega

/-- The test of `mir_emit_quotient` for powers of two. -/
theorem isPowerOfTwo_iff {ad : BitVec 64} (had : ad ≠ 0) : ad &&& (ad - 1) = 0 ↔ ad.toNat.isPowerOfTwo := by
  have hne : ad.toNat ≠ 0 := fun h => had (BitVec.eq_of_toNat_eq h)
  have hsub : (ad - 1).toNat = ad.toNat - 1 := by
    have hone : (1 : BitVec 64).toNat = 1 := rfl
    rw [BitVec.toNat_sub, hone]
    omega
  rw [← Nat.and_sub_one_eq_zero_iff_isPowerOfTwo hne, ← BitVec.toNat_inj, BitVec.toNat_and, hsub]
  rfl

/-- So the shift for a power of two is its exponent. -/
theorem divmodShiftFor_pow {ad : BitVec 64} {k : ℕ} (h : ad.toNat = 2 ^ k) : k < 64 ∧ divmodShiftFor ad = k := by
  have hk : k < 64 := by
    rw [← Nat.pow_lt_pow_iff_right (a := 2) (by decide), ← h]
    exact ad.isLt
  exact ⟨hk, shiftLoop_pow h hk⟩

example : divmodShiftFor 4096 = 12 := by decide +kernel

section

variable {load : Operand → Regs → BitVec 64} {regs : Regs} {n : ℤ} {Q A : Operand}

/-- The truncating quotient, wrapped to a word. -/
def quotient (uns : Bool) (x C : BitVec 64) : BitVec 64 :=
  if uns then BitVec.ofNat 64 (x.toNat / C.toNat) else BitVec.ofInt 64 (x.toInt.tdiv C.toInt)

/-- The remainder of the truncating quotient. -/
def remainder (uns : Bool) (x C : BitVec 64) : BitVec 64 :=
  if uns then BitVec.ofNat 64 (x.toNat % C.toNat) else BitVec.ofInt 64 (x.toInt.tmod C.toInt)

example : quotient false (-7) 2 = -3 ∧ remainder false (-7) 2 = -1 := by decide +kernel

section

variable {iconsts : IConsts} (hpool : ∀ c ∈ iconsts, regs c.2 = c.1) (hQ : Q.kind = .vreg) (hA : A.kind = .vreg)
    (hAn : A.vreg < n)
include hpool hQ hA hAn

variable {C : BitVec 64}

/-- The unsigned quotient by every constant that reaches `emit_quotient`. -/
theorem emitQuotient_unsigned_sets (hC : C ≠ 0) (hC1 : C ≠ 1) :
    ∃ insns n', emitQuotient iconsts Q A C true n = some (insns, n') ∧ n ≤ n' ∧
      Sets load insns regs n Q.vreg (quotient true (regs A.vreg) C) := by
  unfold emitQuotient
  simp only [if_true]
  split
  · rename_i hpow
    obtain ⟨k, hk⟩ := (isPowerOfTwo_iff hC).mp hpow
    obtain ⟨hlt, hshift⟩ := divmodShiftFor_pow hk
    rw [hshift]
    refine ⟨_, _, rfl, le_rfl, .shift .nil (by omega) (by omega), ?_⟩
    rw [executeAll_emit1 hQ (compute_shr (m := k) rfl hlt), value_vreg hA]
    refine ⟨_, rfl, ?_, fun u _ hne => update_of_ne hne _ _⟩
    rw [update_self]
    apply BitVec.eq_of_toNat_eq
    rw [quotient, if_pos rfl, BitVec.toNat_ushiftRight, Nat.shiftRight_eq_div_pow, BitVec.toNat_ofNat, hk,
      Nat.mod_eq_of_lt (lt_of_le_of_lt (Nat.div_le_self _ _) (regs A.vreg).isLt)]
  · refine emitMagicQuotientUnsigned_sets hpool hQ hA hAn ?_
    have h0 : C.toNat ≠ 0 := fun h => hC (BitVec.eq_of_toNat_eq h)
    have h1 : C.toNat ≠ 1 := fun h => hC1 (BitVec.eq_of_toNat_eq h)
    omega

/-- The signed quotient by every constant that reaches it. -/
theorem emitQuotient_signed_sets (hQn : Q.vreg < n) (hQA : A.vreg ≠ Q.vreg) (hC : C ≠ 0) (hC1 : C ≠ 1)
    (hCneg : C ≠ -1) :
    ∃ insns n', emitQuotient iconsts Q A C false n = some (insns, n') ∧ n ≤ n' ∧
      Sets load insns regs n Q.vreg (quotient false (regs A.vreg) C) := by
  have habs := toNat_abs C
  unfold emitQuotient
  simp only [if_false, Bool.false_eq_true]
  generalize had : (if C.slt 0 then -C else C) = ad at habs
  have had0 : ad ≠ 0 := by
    intro h
    rw [h] at habs
    have hzero : C.toInt = 0 := Int.natAbs_eq_zero.mp habs.symm
    exact hC (BitVec.eq_of_toInt_eq (by rw [hzero]; rfl))
  split
  -- a power of two is a shift of the corrected dividend
  · rename_i hpow
    obtain ⟨k, hk⟩ := (isPowerOfTwo_iff had0).mp hpow
    obtain ⟨hlt, hshift⟩ := divmodShiftFor_pow hk
    have hk1 : 1 ≤ k := by
      by_contra hk0
      obtain rfl : k = 0 := by omega
      have hint : C.toInt = 1 ∨ C.toInt = -1 := by
        omega
      rcases hint with h | h
      · exact hC1 (BitVec.eq_of_toInt_eq (by rw [h]; decide))
      · exact hCneg (BitVec.eq_of_toInt_eq (by rw [h]; decide))
    have hquotient : quotient false (regs A.vreg) C =
        if C.slt 0 then -BitVec.ofInt 64 ((regs A.vreg).toInt.tdiv (2 ^ k))
        else BitVec.ofInt 64 ((regs A.vreg).toInt.tdiv (2 ^ k)) := by
      have hcast : ((2 ^ k : ℕ) : ℤ) = 2 ^ k := by push_cast; rfl
      rw [quotient, if_neg (by decide)]
      split
      · rename_i hneg
        rw [slt_zero_iff] at hneg
        rw [← BitVec.ofInt_neg, ← Int.tdiv_neg, ← hcast, ← hk, habs]
        congr 2
        omega
      · rename_i hpos
        rw [slt_zero_iff] at hpos
        congr 2
        omega
    refine ⟨_, _, rfl, show n ≤ n + 2 by omega, ?_⟩
    rw [hshift, hquotient]
    exact emitPow2QuotientSigned_sets hQ hA hAn hk1 (by omega) C
  -- any other divisor is a multiplication by its magic number
  · rename_i hpow
    rw [isPowerOfTwo_iff had0, habs] at hpow
    exact emitMagicQuotientSigned_sets hpool hQ hA hQn hQA hC hpow

/-- Both signednesses. -/
theorem emitQuotient_sets (hQn : Q.vreg < n) (hQA : A.vreg ≠ Q.vreg) {uns : Bool} (hC : C ≠ 0) (hC1 : C ≠ 1)
    (hCneg : uns = false → C ≠ -1) :
    ∃ insns n', emitQuotient iconsts Q A C uns n = some (insns, n') ∧ n ≤ n' ∧
      Sets load insns regs n Q.vreg (quotient uns (regs A.vreg) C) := by
  cases uns with
  | true => exact emitQuotient_unsigned_sets hpool hQ hA hAn hC hC1
  | false => exact emitQuotient_signed_sets hpool hQ hA hAn hQn hQA hC hC1 (hCneg rfl)

end

/-! ## Remainders -/

variable {dst : Operand} {C : BitVec 64}

/-- The product of the quotient and the constant. -/
theorem emitTimesConstant_sets (hdst : dst.kind = .vreg) (hQ : Q.kind = .vreg) (hQn : Q.vreg < n) (C : BitVec 64) :
    Sets load (emitTimesConstant dst Q C n).1 regs n dst.vreg (regs Q.vreg * C) := by
  unfold emitTimesConstant Sets
  split
  · refine ⟨.other .nil, ?_⟩
    rw [executeAll_emit1 hdst rfl, value_vreg hQ]
    refine ⟨_, rfl, ?_, fun u _ hne => update_of_ne hne _ _⟩
    rw [update_self]
    exact congrArg _ (BitVec.ofInt_toInt (x := C))
  · refine ⟨.other (.other .nil), ?_⟩
    rw [executeAll_emit1 (kind_ofVreg _) rfl, executeAll_emit1 hdst rfl, value_vreg hQ]
    refine ⟨_, rfl, ?_, fun u hu hne => ?_⟩
    · rw [update_self, value_vreg (kind_ofVreg n), vreg_ofVreg, update_self, update_of_ne hQn.ne]
      exact congrArg _ (BitVec.ofInt_toInt (x := C))
    · rw [update_of_ne hne]
      exact update_of_ne hu.ne _ _

/-- The remainder from the quotient, in wrapping arithmetic. -/
theorem sub_quotient_mul (uns : Bool) (x C : BitVec 64) : x - quotient uns x C * C = remainder uns x C := by
  cases uns with
  | true =>
    have hsplit := Nat.div_add_mod x.toNat C.toNat
    have hx : x = BitVec.ofNat 64 (x.toNat / C.toNat) * C + BitVec.ofNat 64 (x.toNat % C.toNat) := by
      apply BitVec.eq_of_toNat_eq
      have hlt := x.isLt
      simp only [BitVec.toNat_add, BitVec.toNat_mul, BitVec.toNat_ofNat, Nat.add_mod_mod, Nat.mod_add_mod,
        Nat.mod_mul_mod]
      rw [Nat.mul_comm, hsplit, Nat.mod_eq_of_lt hlt]
    conv_lhs =>
      enter [1]
      rw [hx, BitVec.add_comm]
    exact BitVec.add_sub_cancel _ _
  | false =>
    show x - BitVec.ofInt 64 (x.toInt.tdiv C.toInt) * C = BitVec.ofInt 64 (x.toInt.tmod C.toInt)
    rw [Int.tmod_def, ofInt_sub, BitVec.ofInt_toInt, BitVec.ofInt_mul, BitVec.ofInt_toInt, BitVec.mul_comm]

/-- The remainder is what the product leaves. -/
theorem emitRemainder_sets (hdst : dst.kind = .vreg) (hA : A.kind = .vreg) (hAn : A.vreg < n) (hQ : Q.kind = .vreg)
    (hQn : Q.vreg < n) (C : BitVec 64) :
    Sets load (emitRemainder dst A Q C n).1 regs n dst.vreg (regs A.vreg - regs Q.vreg * C) := by
  have htimes : Sets load (emitTimesConstant (.ofVreg n) Q C (n + 1)).1 regs (n + 1) n (regs Q.vreg * C) :=
    emitTimesConstant_sets (kind_ofVreg n) hQ (by omega) C
  obtain ⟨hshifts, regs₁, hrun, hvalue, hkeep⟩ := htimes
  unfold Sets emitRemainder
  refine ⟨hshifts.append (.other .nil), ?_⟩
  rw [executeAll_append, hrun, bind_some, executeAll_emit1 hdst rfl, value_vreg hA,
    value_vreg (kind_ofVreg n), vreg_ofVreg, hvalue, hkeep A.vreg (by omega) hAn.ne]
  refine ⟨_, rfl, update_self .., fun u hu hne => ?_⟩
  rw [update_of_ne hne, hkeep u (by omega) hu.ne]

/-! ## The whole sequence -/

/-- The value of `a` in a register, at the beginning of the sequence. -/
structure InReg (load : Operand → Regs → BitVec 64) (a : Operand) (n : ℤ) (regs : Regs) (insns : List Inst)
    (A : Operand) (n' : ℤ) (regs' : Regs) : Prop where
  le : n ≤ n'
  kind : A.kind = .vreg
  lt : A.vreg < n'
  shifts : ShiftsInRange insns
  run : executeAll load insns regs = some regs'
  value : regs' A.vreg = a.value load regs
  keep : ∀ u < n, regs' u = regs u

/-- The dividend is in a register from here on, its own or a new one. -/
theorem divmodValueInReg_inReg {a : Operand} (ha : a.kind = .vreg → a.vreg < n) :
    ∃ regs', InReg load a n regs (divmodValueInReg a n).1 (divmodValueInReg a n).2.1 (divmodValueInReg a n).2.2
      regs' := by
  unfold divmodValueInReg
  split
  · rename_i hkind
    exact ⟨regs, le_rfl, hkind, ha hkind, .nil, rfl, (value_vreg hkind regs).symm, fun u _ => rfl⟩
  · exact ⟨_, show n ≤ n + 1 by omega, rfl, show n < n + 1 by omega, .other .nil,
      executeAll_emit1 (kind_ofVreg n) rfl, update_self .., fun u hu => update_of_ne hu.ne _ _⟩

theorem quotient_one (uns : Bool) (x : BitVec 64) : quotient uns x 1 = x := by
  cases uns with
  | true =>
    show BitVec.ofNat 64 (x.toNat / 1) = x
    rw [Nat.div_one, BitVec.ofNat_toNat, BitVec.setWidth_eq]
  | false =>
    show BitVec.ofInt 64 (x.toInt.tdiv 1) = x
    rw [Int.tdiv_one, BitVec.ofInt_toInt]

theorem remainder_one (uns : Bool) (x : BitVec 64) : remainder uns x 1 = 0 := by
  rw [← sub_quotient_mul, quotient_one]
  simp

/-- By minus one it is the negated dividend, wrapped for the least word. -/
theorem quotient_neg_one (x : BitVec 64) : quotient false x (-1) = -x := by
  show BitVec.ofInt 64 (x.toInt.tdiv (-1)) = -x
  rw [Int.tdiv_neg, Int.tdiv_one, BitVec.ofInt_neg, BitVec.ofInt_toInt]

theorem remainder_neg_one (x : BitVec 64) : remainder false x (-1) = 0 := by
  rw [← sub_quotient_mul, quotient_neg_one, BitVec.mul_neg, BitVec.neg_mul, BitVec.neg_neg]
  simp

/-- The quotient in its own register, and the remainder or a copy behind it. -/
theorem quotient_then_sets {iconsts : IConsts} (hdst : dst.kind = .vreg) (hpool : ∀ c ∈ iconsts, regs c.2 = c.1)
    (hA : A.kind = .vreg) (hAn : A.vreg < n) {uns : Bool} (hC : C ≠ 0) (hC1 : C ≠ 1) (hCneg : uns = false → C ≠ -1)
    (mod : Bool) :
    ∃ insns n', emitQuotient iconsts (.ofVreg n) A C uns (n + 1) = some (insns, n') ∧
      Sets load (insns ++ if mod then (emitRemainder dst A (.ofVreg n) C n').1 else [emit1 .mov dst (.ofVreg n) {}])
        regs n dst.vreg (if mod then remainder uns (regs A.vreg) C else quotient uns (regs A.vreg) C) := by
  have hquotient : ∃ insns n', emitQuotient iconsts (.ofVreg n) A C uns (n + 1) = some (insns, n') ∧ n + 1 ≤ n' ∧
      Sets load insns regs (n + 1) n (quotient uns (regs A.vreg) C) :=
    emitQuotient_sets hpool (kind_ofVreg n) hA (by omega) (show n < n + 1 by omega) (show A.vreg ≠ n from hAn.ne)
      hC hC1 hCneg
  obtain ⟨insns, n', hemit, hle, hshifts, regs₁, hrun, hvalue, hkeep⟩ := hquotient
  refine ⟨insns, n', hemit, ?_⟩
  have hAeq : regs₁ A.vreg = regs A.vreg := hkeep A.vreg (by omega) hAn.ne
  cases mod with
  | true =>
    have hremainder : Sets load (emitRemainder dst A (.ofVreg n) C n').1 regs₁ n' dst.vreg
        (regs₁ A.vreg - regs₁ n * C) :=
      emitRemainder_sets hdst hA (by omega) (kind_ofVreg n) (show n < n' by omega) C
    obtain ⟨hshifts₂, regs₂, hrun₂, hvalue₂, hkeep₂⟩ := hremainder
    refine ⟨hshifts.append hshifts₂, regs₂, ?_, ?_, fun u hu hne => ?_⟩
    · rw [executeAll_append, hrun]
      exact hrun₂
    · rw [hvalue₂, hAeq, hvalue]
      exact sub_quotient_mul uns _ C
    · rw [hkeep₂ u (by omega) hne, hkeep u (by omega) hu.ne]
  | false =>
    refine ⟨hshifts.append (.other .nil), update regs₁ dst.vreg (regs₁ n), ?_, ?_, fun u hu hne => ?_⟩
    · rw [executeAll_append, hrun]
      exact executeAll_emit1 hdst rfl
    · rw [update_self, hvalue]
      rfl
    · rw [update_of_ne hne, hkeep u (by omega) hu.ne]

/-- One instruction that writes the destination. -/
theorem emit1_sets {b : Operand} {op : Opcode} {x : BitVec 64} (hdst : dst.kind = .vreg)
    (hop : op ≠ .shl ∧ op ≠ .shr ∧ op ≠ .sar)
    (hx : (emit1 op dst b {}).compute (b.value load regs) (({} : Operand).value load regs) = some x) :
    Sets load [emit1 op dst b {}] regs n dst.vreg x :=
  ⟨.other .nil hop, _, executeAll_emit1 hdst hx, update_self .., fun _ _ hne => update_of_ne hne _ _⟩

/-- Quotient or remainder of a dividend in a register, by every constant but zero. -/
theorem emitDivmodInReg_sets {iconsts : IConsts} (hdst : dst.kind = .vreg) (hdstn : dst.vreg < n)
    (hpool : ∀ c ∈ iconsts, regs c.2 = c.1) (hA : A.kind = .vreg) (hAn : A.vreg < n) (hC : C ≠ 0) (uns mod : Bool) :
    ∃ insns n', emitDivmodInReg iconsts dst A C uns mod n = some (insns, n') ∧ Sets load insns regs n dst.vreg
        (if mod then remainder uns (regs A.vreg) C else quotient uns (regs A.vreg) C) := by
  unfold emitDivmodInReg
  split
  -- the divisor 1
  · rename_i hC1
    refine ⟨_, _, rfl, ?_⟩
    rw [hC1, remainder_one, quotient_one]
    cases mod with
    | true => exact emit1_sets hdst (by decide) rfl
    | false => exact emit1_sets hdst (by decide) (congrArg some (value_vreg hA regs))
  rename_i hC1
  split
  -- the divisor -1
  · rename_i hCneg
    obtain ⟨hsigned, rfl⟩ := hCneg
    obtain rfl : uns = false := by simpa using hsigned
    refine ⟨_, _, rfl, ?_⟩
    rw [remainder_neg_one, quotient_neg_one]
    cases mod with
    | true => exact emit1_sets hdst (by decide) rfl
    | false => exact emit1_sets hdst (by decide) (congrArg (fun x => some (-x)) (value_vreg hA regs))
  rename_i hCneg
  have hCneg' : uns = false → C ≠ -1 := by
    rintro rfl rfl
    exact hCneg ⟨rfl, rfl⟩
  by_cases hin : !mod ∧ dst.kind = .vreg ∧ ¬ (A.kind = .vreg ∧ A.vreg = dst.vreg)
  · -- the quotient goes to the destination at once
    obtain rfl : mod = false := by simpa using hin.1
    have hne : A.vreg ≠ dst.vreg := fun heq => hin.2.2 ⟨hA, heq⟩
    obtain ⟨insns, n', hemit, -, hsets⟩ : ∃ insns n', emitQuotient iconsts dst A C uns n = some (insns, n') ∧
        n ≤ n' ∧ Sets load insns regs n dst.vreg (quotient uns (regs A.vreg) C) :=
      emitQuotient_sets hpool hdst hA hAn hdstn hne hC hC1 hCneg'
    simp only [if_pos hin, hemit, map_some, Bool.false_eq_true, if_false]
    exact ⟨_, _, rfl, hsets⟩
  · obtain ⟨insns, n', hemit, hsets⟩ : ∃ insns n', emitQuotient iconsts (.ofVreg n) A C uns (n + 1) =
        some (insns, n') ∧ Sets load (insns ++ if mod then (emitRemainder dst A (.ofVreg n) C n').1
          else [emit1 .mov dst (.ofVreg n) {}]) regs n dst.vreg
            (if mod then remainder uns (regs A.vreg) C else quotient uns (regs A.vreg) C) :=
      quotient_then_sets hdst hpool hA hAn hC hC1 hCneg' mod
    simp only [if_neg hin, hemit, map_some]
    cases mod with
    | true => exact ⟨_, _, rfl, hsets⟩
    | false => exact ⟨_, _, rfl, hsets⟩

end

/-- Division and remainder by every constant but zero are exact: the emitted instructions, whose shift counts are
in range, leave the truncating quotient or remainder in the destination and change no other register of the
function. -/
theorem emitConstDivmod_exact (load : Operand → Regs → BitVec 64) {iconsts : IConsts} {dst a : Operand} {n : ℤ}
    {regs : Regs} (hdst : dst.kind = .vreg) (hdstn : dst.vreg < n) (ha : a.kind = .vreg → a.vreg < n)
    (hpool : ∀ c ∈ iconsts, c.2 < n ∧ regs c.2 = c.1) {C : BitVec 64} (hC : C ≠ 0) (uns mod : Bool) :
    ∃ insns n' regs', emitConstDivmod iconsts dst a C uns mod n = some (insns, n') ∧ ShiftsInRange insns ∧
      executeAll load insns regs = some regs' ∧
      regs' dst.vreg = (if mod then remainder uns (a.value load regs) C else quotient uns (a.value load regs) C) ∧
      ∀ u < n, u ≠ dst.vreg → regs' u = regs u := by
  obtain ⟨regs₁, h⟩ : ∃ regs₁, InReg load a n regs _ _ _ regs₁ := divmodValueInReg_inReg ha
  unfold emitConstDivmod
  rw [if_neg hC]
  generalize divmodValueInReg a n = inReg at h
  obtain ⟨insns₁, A, n₁⟩ := inReg
  have hpool₁ : ∀ c ∈ iconsts, regs₁ c.2 = c.1 := fun c hc => by
    rw [h.keep c.2 (hpool c hc).1, (hpool c hc).2]
  obtain ⟨insns₂, n₂, hemit, hshifts, regs₂, hrun, hvalue, hkeep⟩ : ∃ insns n',
      emitDivmodInReg iconsts dst A C uns mod n₁ = some (insns, n') ∧ Sets load insns regs₁ n₁ dst.vreg
        (if mod then remainder uns (regs₁ A.vreg) C else quotient uns (regs₁ A.vreg) C) :=
    emitDivmodInReg_sets hdst (hdstn.trans_le h.le) hpool₁ h.kind h.lt hC uns mod
  simp only [hemit, Option.map_some]
  refine ⟨_, _, regs₂, rfl, h.shifts.append hshifts, ?_, ?_, fun u hu hne => ?_⟩
  · rw [executeAll_append, h.run]
    exact hrun
  · rw [hvalue, h.value]
  · rw [hkeep u (hu.trans_le h.le) hne, h.keep u hu]

/-- `-100 / 7` in place. -/
theorem emitConstDivmod_exact_seven :
    ∃ insns n' regs', emitConstDivmod [] (.ofVreg 0) (.ofVreg 0) 7 false false 1 = some (insns, n') ∧
      executeAll (fun _ _ => 0) insns (fun _ => -100) = some regs' ∧ regs' 0 = -14 := by
  have hreg : (Operand.ofVreg 0).vreg < 1 := by decide
  obtain ⟨insns, n', regs', hemit, -, hrun, hvalue, -⟩ :=
    emitConstDivmod_exact (fun _ _ => 0) (kind_ofVreg 0) hreg (fun _ => hreg)
      (fun c hc => absurd hc List.not_mem_nil) (show (7 : BitVec 64) ≠ 0 by decide) false false
  exact ⟨insns, n', regs', hemit, hrun, hvalue.trans (by decide)⟩

end Mettle.Mir

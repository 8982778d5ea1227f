import Mettle.Ir.ValueRange
import Mettle.Ir.RewriteIdentities
import Mettle.Ir.CoalesceForward

/-!
# Rewrites from sound ranges

What an instruction does after it was rewritten from sound intervals: it stores the same word in the same
destination or goes to the same place.
-/

open List
open Option hiding or_self

namespace Mettle.Ir

open State

section Words

variable {x y : BitVec 64} {a b : IntRange}

/-- A word in an interval. -/
def IntRange.Contains (r : IntRange) (x : BitVec 64) : Prop := r.lo ≤ x.toInt ∧ x.toInt ≤ r.hi

/-- What is in a range that is not negative is not negative. -/
theorem IntRange.Contains.nonneg (h : a.Contains x) (hlo : 0 ≤ a.lo) : 0 ≤ x.toInt := hlo.trans h.1

/-- A comparison is folded only for ranges that are not negative. -/
theorem vrFoldComparison_nonneg {op : String} {r : Bool} (h : vrFoldComparison op a b = some r) :
    0 ≤ a.lo ∧ 0 ≤ b.lo := by
  unfold vrFoldComparison at h
  split at h
  · cases h
  · rename_i hneg
    rwa [not_or, not_lt, not_lt] at hneg

/-- The comparisons whose outcome the intervals give. -/
theorem vrFoldComparison_spec {op : String} {r : Bool} (h : vrFoldComparison op a b = some r)
    (hx : a.Contains x) (hy : b.Contains y) (u : Bool) : binaryInt op u x y = some (.ofBool r) := by
  obtain ⟨hlo, hlo'⟩ := vrFoldComparison_nonneg h
  unfold vrFoldComparison at h
  have hx₀ := hx.nonneg hlo
  have hy₀ := hy.nonneg hlo'
  have hslt : x.ult y = decide (x.toInt < y.toInt) := (Lib.slt_of_nonneg hx₀ hy₀).symm
  have hslt' : y.ult x = decide (y.toInt < x.toInt) := (Lib.slt_of_nonneg hy₀ hx₀).symm
  have hsle : x.ule y = decide (x.toInt ≤ y.toInt) := (Lib.sle_of_nonneg hx₀ hy₀).symm
  have hsle' : y.ule x = decide (y.toInt ≤ x.toInt) := (Lib.sle_of_nonneg hy₀ hx₀).symm
  obtain ⟨hx₁, hx₂⟩ := hx
  obtain ⟨hy₁, hy₂⟩ := hy
  split_ifs at h with h₁ h₂ h₃ h₄ h₅ h₆ h₇ h₈ h₉ h₁₀ h₁₁ h₁₂ h₁₃ h₁₄ h₁₅ h₁₆ <;>
    obtain rfl := some.inj h <;> subst_vars <;>
    simp only [binaryInt, String.reduceEq, if_true, if_false, or_self, hslt, hslt', hsle, hsle', BitVec.slt,
      BitVec.sle, ite_self, some.injEq] <;>
    congr 1 <;> simp only [decide_eq_true_eq, decide_eq_false_iff_not, not_lt, not_le]
  all_goals first | omega | (intro heq; rw [heq] at hx₁ hx₂; omega)

section

variable (hx : a.Contains x) (hlo : 0 ≤ a.lo)
include hx hlo

/-- A word of the interval loses no bit to the covering mask. -/
theorem and_vrCoverMask : x &&& vrCoverMask a.hi = x := by
  have hsmear : Lib.Smeared (BitVec.ofInt 64 a.hi) (vrCoverMask a.hi) 64 :=
    (Lib.smeared_one _).double.double.double.double.double.double
  refine hsmear.and_eq ?_
  have hx₀ := Lib.toNat_of_nonneg (hx.nonneg hlo)
  have hhi := a.hi_le
  have hle := hx.2
  rw [BitVec.toNat_ofInt]
  omega

/-- A mask that covers the interval keeps the word. -/
theorem and_of_cover {mask : BitVec 64} (hcover : vrCoverMask a.hi &&& mask = vrCoverMask a.hi) : x &&& mask = x := by
  calc x &&& mask = x &&& vrCoverMask a.hi &&& mask := by rw [and_vrCoverMask hx hlo]
    _ = x &&& (vrCoverMask a.hi &&& mask) := BitVec.and_assoc ..
    _ = x := by rw [hcover, and_vrCoverMask hx hlo]

/-- A mask without a bit of the interval leaves nothing. -/
theorem and_of_disjoint {mask : BitVec 64} (hcover : vrCoverMask a.hi &&& mask = 0) : x &&& mask = 0 := by
  calc x &&& mask = x &&& vrCoverMask a.hi &&& mask := by rw [and_vrCoverMask hx hlo]
    _ = x &&& (vrCoverMask a.hi &&& mask) := BitVec.and_assoc ..
    _ = 0 := by
      rw [hcover]
      exact BitVec.and_zero

/-- A shift past the interval. -/
theorem shiftRight_of_range {k : ℕ} (hshift : a.hi >>> k = 0) : x >>> k = 0 := by
  have hx₀ := Lib.toNat_of_nonneg (hx.nonneg hlo)
  have hle := hx.2
  apply BitVec.eq_of_toNat_eq
  rw [BitVec.toNat_ushiftRight, Nat.shiftRight_eq_div_pow]
  rw [Int.shiftRight_eq_div_pow] at hshift
  have hlt : a.hi < (2 ^ k : ℕ) := by
    have hmod := Int.emod_add_mul_ediv a.hi (2 ^ k : ℕ)
    rw [hshift, mul_zero, add_zero] at hmod
    rw [← hmod]
    exact Int.emod_lt_of_pos _ (by positivity)
  refine Nat.div_eq_of_lt ?_
  omega

end

/-- The quotient and the remainder of a word below the divisor. -/
theorem binaryInt_divide_small {op : String} (hop : op = "/" ∨ op = "%") (u : Bool) (hx : 0 ≤ x.toInt)
    (hlt : x.toInt < y.toInt) :
    binaryInt op u x y = some (.ofInt (if op = "/" then 0 else x)) := by
  have hy : 0 ≤ y.toInt := by omega
  have hne : y ≠ 0 := by
    rintro rfl
    simp at hlt
    omega
  have hne' : y ≠ -1 := by
    rintro rfl
    revert hy
    decide
  have hnat : x < y := by
    rw [BitVec.lt_def]
    have := Lib.toNat_of_nonneg hx
    have := Lib.toNat_of_nonneg hy
    omega
  rcases hop with rfl | rfl
  · simp only [binaryInt, String.reduceEq, if_false, true_or, if_true, hne, hne', and_false]
    rw [Lib.sdiv_of_nonneg hx hy, BitVec.udiv_eq_zero_iff_eq_zero_or_lt.mpr (Or.inr hnat)]
    cases u <;> rfl
  · simp only [binaryInt, String.reduceEq, if_false, or_true, if_true, hne, hne', and_false]
    rw [Lib.srem_of_nonneg hx hy, BitVec.umod_eq_of_lt hnat]
    cases u <;> rfl

end Words

/-! ## Sound intervals -/

section Operands

variable {W : Type} {H : Host W} {fn out : Function} {s : State W} {i : Inst} {o : Operand} {r : IntRange}
  {range : Operand → IntRange}

/-- The interval contains the value of an operand. The word of a float or of a string literal is not what
an interval is about, and the full interval says nothing of it. -/
def IntRange.Sound (H : Host W) (s : State W) (o : Operand) (r : IntRange) : Prop :=
  ∀ v, s.fetch H o = some v →
    if v.isFloat = true ∨ o.kind = .string then r = .full else r.Contains v.i

/-- An operand with a range of its own is a word in that range. -/
theorem IntRange.Sound.word (h : r.Sound H s o) {v : Value} (hv : s.fetch H o = some v) (hr : r ≠ .full) :
    o.kind ≠ .string ∧ v.isFloat = false ∧ r.Contains v.i := by
  have hsound := h v hv
  split at hsound
  · exact absurd hsound hr
  · rename_i hnot
    rw [not_or, Bool.not_eq_true] at hnot
    exact ⟨hnot.2, hnot.1, hsound⟩

/-- So is one whose range is not negative. -/
theorem IntRange.Sound.nonneg (h : r.Sound H s o) {v : Value} (hv : s.fetch H o = some v) (hr : 0 ≤ r.lo) :
    o.kind ≠ .string ∧ s.HasWord H o v.i ∧ r.Contains v.i := by
  have hfull : r ≠ .full := by
    rintro rfl
    exact absurd hr (by decide)
  obtain ⟨hkind, hfloat, hword⟩ := h.word hv hfull
  exact ⟨hkind, ⟨v, hv, hfloat, rfl⟩, hword⟩

/-! ## Operations -/

section

variable (hop : i.op = .binary) (hconcat : i.isConcat = false) (hfloat : i.isFloat = false)
include hop hconcat hfloat

/-- The operation is replaced by its value. -/
theorem storesSame_literal {a b c : BitVec 64} (ha : s.HasWord H i.lhs a) (hb : s.HasWord H i.rhs b)
    (hvalue : binaryInt (i.text.getD "?") i.isUnsigned a b = some (.ofInt c)) :
    StoresSame H fn s i (i.rewriteToAssignOperand (.ofInt c)) := by
  obtain ⟨v, hv, hvf, hvi⟩ := @exec_binary_word _ H fn s i hop hconcat hfloat a b c ha hb hvalue
  exact ⟨rfl, v, .ofInt c, hv, exec_assign_literal (i := i.rewriteToAssignOperand _) rfl rfl, hvf, rfl, hvi.symm⟩

/-- The operation is replaced by an operand that holds its value. -/
theorem storesSame_operand {a b c : BitVec 64} (ha : s.HasWord H i.lhs a) (hb : s.HasWord H i.rhs b)
    (hvalue : binaryInt (i.text.getD "?") i.isUnsigned a b = some (.ofInt c)) (ho : s.HasWord H o c)
    (hkind : o.kind ≠ .string) : StoresSame H fn s i (i.rewriteToAssignOperand o) := by
  obtain ⟨v, hv, hvf, hvi⟩ := @exec_binary_word _ H fn s i hop hconcat hfloat a b c ha hb hvalue
  obtain ⟨v', hv', hvf', hvi'⟩ := @exec_assign_word _ H fn s (i.rewriteToAssignOperand o) rfl hkind c ho
  exact ⟨rfl, v, v', hv, hv', hvf, hvf', hvi'.trans hvi.symm⟩

/-- The operation is replaced by another operator and literal. -/
theorem storesSame_operator {a b c d : BitVec 64} {op : String} (hplus : op ≠ "+") (ha : s.HasWord H i.lhs a)
    (hb : s.HasWord H i.rhs b) (hvalue : binaryInt (i.text.getD "?") i.isUnsigned a b = some (.ofInt c))
    (hvalue' : binaryInt op i.isUnsigned a d = some (.ofInt c)) :
    StoresSame H fn s i { i with text := some op, rhs := .ofInt d } := by
  obtain ⟨v, hv, hvf, hvi⟩ := @exec_binary_word _ H fn s i hop hconcat hfloat a b c ha hb hvalue
  obtain ⟨v', hv', hvf', hvi'⟩ := @exec_binary_word _ H fn s { i with text := some op, rhs := .ofInt d } hop
    (by simp [Inst.isConcat, hplus]) hfloat a d c ha (hasWord_ofInt d) hvalue'
  exact ⟨rfl, v, v', hv, hv', hvf, hvf', hvi'.trans hvi.symm⟩

end

variable {op : String} {v : Value} {u : Bool} {i' : Inst}

theorem isConcat_of_text (htext : i.text = some op) (hop : op ≠ "+") : i.isConcat = false := by
  simp [Inst.isConcat, htext, hop]

/-- A division or a remainder of what is not negative stores the same as the shift or the mask. -/
theorem vrSimplifyDivide_stores (hsound : (range i.lhs).Sound H s i.lhs) (hop : i.op = .binary)
    (hfloat : i.isFloat = false) (htext : i.text = some op) (hdivide : op = "/" ∨ op = "%")
    (hv : s.fetch H i.lhs = some v) :
    i.vrSimplifyDivide range (op = "/") = i ∨
      StoresSame H fn s i (i.vrSimplifyDivide range (op = "/")) := by
  have hconcat : i.isConcat = false := isConcat_of_text htext (by rcases hdivide with rfl | rfl <;> decide)
  unfold Inst.vrSimplifyDivide
  split
  · exact Or.inl rfl
  rename_i hcond
  rw [not_or, not_not, Bool.not_eq_true, BitVec.sle, decide_eq_false_iff_not, not_le] at hcond
  have hdivisor : s.HasWord H i.rhs i.rhs.intValue := hasWord_int hcond.1
  simp only
  -- only a dividend that is never negative is rewritten
  split
  · exact Or.inl rfl
  rename_i hlo
  obtain ⟨hkind, hword, hrange⟩ := hsound.nonneg hv (not_lt.mp hlo)
  have hnonneg := hrange.nonneg (not_lt.mp hlo)
  split
  · rename_i hlt
    have hvalue := binaryInt_divide_small hdivide i.isUnsigned hnonneg (hrange.2.trans_lt hlt)
    refine Or.inr ?_
    rcases hdivide with rfl | rfl
    · exact storesSame_literal hop hconcat hfloat hword hdivisor (by rw [htext]; exact hvalue)
    · exact storesSame_operand hop hconcat hfloat hword hdivisor (by rw [htext]; exact hvalue) hword hkind
  split
  · exact Or.inl rfl
  rename_i shift hshift
  obtain ⟨hk, hpow, -⟩ := pow2Shift_spec hshift
  refine Or.inr ?_
  rcases hdivide with rfl | rfl
  · have hvalue := binaryInt_div_twoPow i.isUnsigned hnonneg hk
    refine storesSame_operator hop hconcat hfloat (by decide) hword hdivisor
      (by rw [htext, hpow]; exact hvalue) ?_
    rw [binaryInt]
    simp [Nat.mod_eq_of_lt (show shift < 64 by omega)]
  · have hvalue := binaryInt_rem_twoPow i.isUnsigned hnonneg hk
    refine storesSame_operator hop hconcat hfloat (by decide) hword hdivisor
      (by rw [htext, hpow]; exact hvalue) ?_
    rw [← hpow]
    simp [binaryInt]

/-- The mask is removed, or nothing is left of the value. -/
theorem vrSimplifyMask_stores {value : Operand} {mask : BitVec 64} (hsound : (range value).Sound H s value)
    (hop : i.op = .binary) (hfloat : i.isFloat = false) (htext : i.text = some "&") (hv : s.fetch H value = some v)
    (hoperands : s.HasWord H value v.i → ∃ a b, s.HasWord H i.lhs a ∧ s.HasWord H i.rhs b ∧ a &&& b = v.i &&& mask) :
    i.vrSimplifyMask range value mask = i ∨ StoresSame H fn s i (i.vrSimplifyMask range value mask) := by
  have hconcat : i.isConcat = false := isConcat_of_text htext (by decide)
  unfold Inst.vrSimplifyMask
  split
  · exact Or.inl rfl
  simp only
  split
  · exact Or.inl rfl
  rename_i hlo
  rw [not_lt] at hlo
  obtain ⟨hkind, hword, hrange⟩ := hsound.nonneg hv hlo
  obtain ⟨a, b, ha, hb, hand⟩ := hoperands hword
  have hvalue : binaryInt (i.text.getD "?") i.isUnsigned a b = some (.ofInt (v.i &&& mask)) := by
    rw [htext, ← hand]
    rfl
  split
  · rename_i hcover
    rw [and_of_cover hrange hlo hcover] at hvalue
    exact Or.inr (storesSame_operand hop hconcat hfloat ha hb hvalue hword hkind)
  split
  · rename_i hcover
    rw [and_of_disjoint hrange hlo hcover] at hvalue
    exact Or.inr (storesSame_literal hop hconcat hfloat ha hb hvalue)
  · exact Or.inl rfl

/-- An operation is left as it is, or the new instruction stores the same word. -/
theorem valueRangeSimplify_stores (hsound : ∀ o, (range o).Sound H s o) (hop : i.op = .binary) {a b : Value}
    (ha : s.fetch H i.lhs = some a) (hb : s.fetch H i.rhs = some b) :
    i.valueRangeSimplify range = i ∨ StoresSame H fn s i (i.valueRangeSimplify range) := by
  unfold Inst.valueRangeSimplify
  rw [if_neg (by rw [hop]; decide)]
  split
  · exact Or.inl rfl
  rename_i hcond
  rw [not_or, not_not, Bool.not_eq_true] at hcond
  have hfloat := hcond.2
  split
  · exact Or.inl rfl
  rename_i op htext
  split
  · rename_i hdivide
    exact vrSimplifyDivide_stores (hsound _) hop hfloat htext hdivide ha
  split
  · rename_i hand
    rw [hand] at htext
    split
    · rename_i hkinds
      refine vrSimplifyMask_stores (hsound _) hop hfloat htext ha fun hword => ?_
      exact ⟨_, _, hword, hasWord_int hkinds.1, rfl⟩
    split
    · rename_i hkinds
      refine vrSimplifyMask_stores (hsound _) hop hfloat htext hb fun hword => ?_
      exact ⟨_, _, hasWord_int hkinds.1, hword, BitVec.and_comm ..⟩
    · exact Or.inl rfl
  split
  · rename_i hshift
    obtain ⟨rfl, hkind, hpos, hlt⟩ := hshift
    split
    · rename_i hrange
      obtain ⟨-, hword, hcontains⟩ := (hsound i.lhs).nonneg ha hrange.1
      have hcount : i.rhs.intValue.toNat % 64 = i.rhs.intValue.toNat := by
        have := Lib.toNat_of_nonneg hpos.le
        omega
      have hzero := shiftRight_of_range hcontains hrange.1 hrange.2
      refine Or.inr (storesSame_literal hop (isConcat_of_text htext (by decide)) hfloat hword (hasWord_int hkind) ?_)
      rw [htext]
      simp [binaryInt, hcount, hzero, Lib.sshiftRight_of_nonneg (hcontains.nonneg hrange.1)]
    · exact Or.inl rfl
  split
  · rename_i hcompare
    split
    · exact Or.inl rfl
    split
    · exact Or.inl rfl
    rename_i result hfold
    have hplus : op ≠ "+" := by
      rintro rfl
      exact absurd hcompare (by decide)
    -- the intervals of a comparison that folds start at zero or above, so both operands are words
    obtain ⟨hlo, hlo'⟩ := vrFoldComparison_nonneg hfold
    obtain ⟨-, hword, hcontains⟩ := (hsound i.lhs).nonneg ha hlo
    obtain ⟨-, hword', hcontains'⟩ := (hsound i.rhs).nonneg hb hlo'
    refine Or.inr (storesSame_literal hop (isConcat_of_text htext hplus) hfloat hword hword' ?_)
    rw [htext]
    exact vrFoldComparison_spec hfold hcontains hcontains' i.isUnsigned
  · exact Or.inl rfl

/-! ## Casts -/

/-- A range that fits a width is not the full one. -/
theorem vrOracleBoundsFit_ne_full {bits : ℕ} (hfit : vrOracleBoundsFit r.lo r.hi bits u = true) : r ≠ .full := by
  rintro rfl
  unfold vrOracleBoundsFit at hfit
  split at hfit
  · cases hfit
  rename_i hbits
  have hle : (2 : ℤ) ^ (bits - 1) ≤ 2 ^ 62 := pow_le_pow_right₀ (by norm_num) (by omega)
  simp only [IntRange.full] at hfit
  cases u <;> simp at hfit
  omega

/-- A word within the bounds of a type is not changed by a cast to it. -/
theorem narrowInt_of_fit {x : BitVec 64} {size : ℕ} (hsize : size ∈ integerSizes)
    (hfit : vrOracleBoundsFit r.lo r.hi (8 * size) u = true) (hx : r.Contains x) : narrowInt x size u = x := by
  unfold vrOracleBoundsFit at hfit
  split at hfit
  · cases hfit
  rename_i hbits
  obtain ⟨hlo, hhi⟩ := hx
  have hword : if u then (x.setWidth (8 * size)).setWidth 64 = x
      else (x.setWidth (8 * size)).signExtend 64 = x := by
    cases u <;> simp only [Bool.false_eq_true, if_false, if_true, decide_eq_true_eq] at hfit ⊢
    · exact Lib.signExtend_of_fit (by omega) (by omega) (by omega) (by omega)
    · exact Lib.setWidth_of_fit (by omega) (by omega)
  simp only [integerSizes, mem_cons, not_mem_nil, or_false] at hsize
  rcases hsize with rfl | rfl | rfl | rfl <;> cases u <;> first | exact hword | omega

/-- A cast whose operand fits stores the same as the assignment. -/
theorem dropRedundantIntCast_stores (hsound : ∀ o, (range o).Sound H s o) {a : Value}
    (ha : s.fetch H i.lhs = some a) :
    i.dropRedundantIntCast range = i ∨ StoresSame H fn s i (i.dropRedundantIntCast range) := by
  unfold Inst.dropRedundantIntCast
  split
  · rename_i hidentity
    simp only [Inst.vrCastIsIdentity, decide_eq_true_eq] at hidentity
    obtain ⟨hop, -, -, -, -, hany⟩ := hidentity
    rw [Option.any_eq_true] at hany
    obtain ⟨⟨bits, u⟩, hinfo, hfit⟩ := hany
    rw [bind_eq_some_iff] at hinfo
    obtain ⟨type, htext, hinfo⟩ := hinfo
    unfold intTypeNameInfo at hinfo
    rw [map_eq_some_iff] at hinfo
    obtain ⟨⟨size, u'⟩, hwidth, hpair⟩ := hinfo
    cases hpair
    rw [builtinIntegerTypeInfo_eq] at hwidth
    obtain ⟨hkind, hfloat, hrange⟩ := (hsound i.lhs).word ha (vrOracleBoundsFit_ne_full hfit)
    have hnarrow := narrowInt_of_fit (integerCastWidth_size hwidth) hfit hrange
    have hcast := FloatOps.cast_integer hwidth hfloat i.valueType i.isUnsigned (F := H.floats)
    rw [hnarrow] at hcast
    obtain ⟨v', hv', hvf', hvi'⟩ := @exec_assign_word _ H fn s (i.rewriteToAssignOperand i.lhs) rfl hkind a.i
      ⟨a, ha, hfloat, rfl⟩
    refine Or.inr ⟨rfl, { Value.ofInt a.i with undefined := a.undefined }, v', ?_, hv', rfl, hvf', hvi'⟩
    rw [exec_simple (by simp [Inst.isSimple, hop]), State.result, State.effect, hop, htext]
    simp [ha, hcast]
  · exact Or.inl rfl

/-! ## Steps -/

/-- The two steps are the same, or they write the same word to the same destination. -/
def StepsAlike (H : Host W) (fn out : Function) (pc : ℕ) (s : State W) : Prop :=
  step H out (.at pc s) = step H fn (.at pc s) ∨
    ∃ v v', step H fn (.at pc s) = (s.storeDest H (fn.insn pc).dest v).map (.at (pc + 1)) ∧
      step H out (.at pc s) = (s.storeDest H (fn.insn pc).dest v').map (.at (pc + 1)) ∧
      v.isFloat = false ∧ v'.isFloat = false ∧ v'.i = v.i

variable {pc : ℕ}

/-- Replacing an instruction by itself changes nothing. -/
theorem setInsn_insn (fn : Function) (pc : ℕ) : fn.setInsn pc (fn.insn pc) = fn := by
  by_cases hpc : pc < fn.instructions.length
  · unfold Function.setInsn Function.insn
    rw [getD_eq_getElem _ _ hpc, set_getElem_self]
  · unfold Function.setInsn
    rw [set_eq_of_length_le (by omega)]

/-- A function steps like itself. -/
theorem stepsAlike_refl (fn : Function) (pc : ℕ) (s : State W) : StepsAlike H fn fn pc s := Or.inl rfl

/-- The step of an instruction that replaces another one. -/
theorem step_setInsn (hpc : pc < fn.instructions.length) (hop : i'.op.isControl = false)
    (hdeclare : i'.op ≠ .declareLocal) :
    step H (fn.setInsn pc i') (.at pc s) = (s.exec H fn i').map (.at (pc + 1)) := by
  have hinsn : (fn.setInsn pc i').insn pc = i' := by rw [Function.insn_setInsn fn hpc, if_pos rfl]
  rw [step_exec (by rw [Function.length_setInsn]; exact hpc) (by rw [hinsn]; exact hop), hinsn,
    exec_function hdeclare]

/-- Instructions that store the same step alike. -/
theorem StoresSame.stepsAlike (hpc : pc < fn.instructions.length) (h : StoresSame H fn s (fn.insn pc) i')
    (hop : (fn.insn pc).op.isControl = false) (hop' : i'.op = .assign ∨ i'.op = .binary) :
    StepsAlike H fn (fn.setInsn pc i') pc s := by
  obtain ⟨-, v, v', hv, hv', hvf, hvf', hvi⟩ := h
  refine Or.inr ⟨v, v', ?_, ?_, hvf, hvf', hvi⟩
  · rw [step_exec hpc hop, hv]
  · rw [step_setInsn hpc (by rcases hop' with h | h <;> rw [h] <;> rfl)
      (by rcases hop' with h | h <;> rw [h] <;> decide), hv']

/-- What is made of a binary operation is one or an assignment. -/
theorem valueRangeSimplify_op (hop : i.op = .binary) :
    (i.valueRangeSimplify range).op = .assign ∨ (i.valueRangeSimplify range).op = .binary := by
  unfold Inst.valueRangeSimplify Inst.vrSimplifyDivide Inst.vrSimplifyMask
  rw [if_neg (by rw [hop]; decide)]
  simp only
  repeat' split
  all_goals first | exact Or.inr hop | exact Or.inl rfl

/-- A branch that becomes a `NOP` falls through. -/
theorem step_setInsn_makeNop (hpc : pc < fn.instructions.length) :
    step H (fn.setInsn pc (fn.insn pc).makeNop) (.at pc s) = some (.at (pc + 1) s) := by
  refine step_nop (by rwa [Function.length_setInsn]) ?_
  rw [Function.insn_setInsn fn hpc, if_pos rfl]
  rfl

/-- A branch that becomes a jump is taken. -/
theorem step_setInsn_makeJump (hpc : pc < fn.instructions.length)
    (hop : (fn.insn pc).op ≠ .label ∧ (fn.insn pc).op ≠ .addressOf) :
    step H (fn.setInsn pc (fn.insn pc).makeJump) (.at pc s) =
      (fn.findLabel (fn.insn pc).text).map fun target => .at target s := by
  have hskel : SameSkeleton fn (fn.setInsn pc (fn.insn pc).makeJump) :=
    .setInsn hpc hop (by simp [Inst.makeJump])
  have hinsn : (fn.setInsn pc (fn.insn pc).makeJump).insn pc = (fn.insn pc).makeJump := by
    rw [Function.insn_setInsn fn hpc, if_pos rfl]
  simp only [step, hskel.length, if_neg (show ¬ fn.instructions.length ≤ pc by omega), hinsn, hskel.findLabel]
  rfl

section

variable (hpc : pc < fn.instructions.length) (hsound : ∀ o, (range o).Sound H s o)
include hpc hsound

/-- A branch on zero that is resolved goes where it went. -/
theorem vrTryResolveBranch_zero (hop : (fn.insn pc).op = .branchZero) (hstep : (step H fn (.at pc s)).isSome = true) :
    step H (fn.setInsn pc ((fn.insn pc).vrTryResolveBranch range)) (.at pc s) = step H fn (.at pc s) := by
  have hfetch : ∃ v, s.fetch H (fn.insn pc).lhs = some v := by
    simp only [step, if_neg (show ¬ fn.instructions.length ≤ pc by omega), hop, bind_eq_bind] at hstep
    cases hv : s.fetch H (fn.insn pc).lhs with
    | none => simp [hv] at hstep
    | some v => exact ⟨v, rfl⟩
  obtain ⟨v, hv⟩ := hfetch
  unfold Inst.vrTryResolveBranch
  rw [if_pos hop]
  simp only
  split
  · rw [setInsn_insn]
  -- the range excludes zero, is zero, or says nothing
  split
  · rename_i hrange
    have hfull : range (fn.insn pc).lhs ≠ .full := by
      intro heq
      rw [heq] at hrange
      exact absurd hrange (by decide)
    obtain ⟨-, hfloat, hlo, hhi⟩ := (hsound _).word hv hfull
    have hne : v.i ≠ 0 := by
      intro hzero
      rw [hzero, show (0 : BitVec 64).toInt = 0 from rfl] at hlo hhi
      omega
    rw [step_setInsn_makeNop hpc, step_branchZero_of_ne hpc hop ⟨v, hv, hfloat, rfl⟩ hne]
  split
  · rename_i hrange
    obtain ⟨-, hword, hlo, hhi⟩ := (hsound _).nonneg hv hrange.1.ge
    have hzero : v.i = 0 := by
      apply BitVec.eq_of_toInt_eq
      rw [show (0 : BitVec 64).toInt = 0 from rfl]
      omega
    rw [hzero] at hword
    rw [step_setInsn_makeJump hpc (by rw [hop]; decide), step_branchZero_of_eq hpc hop hword]
  · rw [setInsn_insn]

/-- So does a branch on equality. -/
theorem vrTryResolveBranch_eq (hop : (fn.insn pc).op = .branchEq) (hstep : (step H fn (.at pc s)).isSome = true) :
    step H (fn.setInsn pc ((fn.insn pc).vrTryResolveBranch range)) (.at pc s) = step H fn (.at pc s) := by
  have hfetch : ∃ v v', s.fetch H (fn.insn pc).lhs = some v ∧ s.fetch H (fn.insn pc).rhs = some v' := by
    simp only [step, if_neg (show ¬ fn.instructions.length ≤ pc by omega), hop, bind_eq_bind] at hstep
    unfold State.branchEq at hstep
    cases hv : s.fetch H (fn.insn pc).lhs with
    | none => simp [hv] at hstep
    | some v =>
      cases hv' : s.fetch H (fn.insn pc).rhs with
      | none => simp [hv, hv'] at hstep
      | some v' => exact ⟨v, v', rfl, rfl⟩
  obtain ⟨v, v', hv, hv'⟩ := hfetch
  unfold Inst.vrTryResolveBranch
  rw [if_neg (by rw [hop]; decide)]
  split
  · rw [setInsn_insn]
  simp only
  split
  · rename_i hrange
    -- an interval that is apart from another one is not full
    have hapart : ∀ {o o' : Operand} {b : Value}, s.fetch H o' = some b →
        (range o).hi < (range o').lo ∨ (range o').hi < (range o).lo → range o ≠ .full := by
      intro o o' b hb hdisjoint heq
      have hlo := (range o').lo_ge
      have hhi := (range o').hi_le
      rw [heq] at hdisjoint
      have hcontains := hsound o' b hb
      have hne : (range o').lo ≤ (range o').hi := by
        split at hcontains
        · rw [hcontains]
          decide
        · exact hcontains.1.trans hcontains.2
      simp only [IntRange.full] at hdisjoint
      omega
    obtain ⟨-, hfloat, hlo, hhi⟩ := (hsound _).word hv (hapart hv' hrange)
    obtain ⟨-, hfloat', hlo', hhi'⟩ := (hsound _).word hv' (hapart hv hrange.symm)
    rw [step_setInsn_makeNop hpc, step_branchEq_word hpc hop ⟨v, hv, hfloat, rfl⟩ ⟨v', hv', hfloat', rfl⟩,
      if_neg]
    intro heq
    rw [heq] at hlo hhi
    omega
  · rw [setInsn_insn]

/-- What `ir_value_range_simplify` makes of an instruction. -/
theorem valueRangeSimplify_stepsAlike (hstep : (step H fn (.at pc s)).isSome = true) :
    StepsAlike H fn (fn.setInsn pc ((fn.insn pc).valueRangeSimplify range)) pc s := by
  by_cases hbranch : (fn.insn pc).op = .branchZero ∨ (fn.insn pc).op = .branchEq
  · have hsimplify : (fn.insn pc).valueRangeSimplify range = (fn.insn pc).vrTryResolveBranch range := by
      unfold Inst.valueRangeSimplify
      rw [if_pos hbranch]
    rw [hsimplify]
    rcases hbranch with hop | hop
    · exact Or.inl (vrTryResolveBranch_zero hpc hsound hop hstep)
    · exact Or.inl (vrTryResolveBranch_eq hpc hsound hop hstep)
  by_cases hop : (fn.insn pc).op = .binary
  · have hcontrol : (fn.insn pc).op.isControl = false := by rw [hop]; rfl
    obtain ⟨c, hc⟩ := isSome_iff_exists.mp hstep
    rw [step_exec hpc hcontrol, map_eq_some_iff] at hc
    obtain ⟨t, hexec, -⟩ := hc
    obtain ⟨a, b, ha, hb⟩ := fetch_of_exec_binary hop hexec
    rcases valueRangeSimplify_stores hsound hop ha hb with heq | hstores
    · rw [heq, setInsn_insn]
      exact stepsAlike_refl fn pc s
    · exact hstores.stepsAlike hpc hcontrol (valueRangeSimplify_op hop)
  · have hsimplify : (fn.insn pc).valueRangeSimplify range = fn.insn pc := by
      unfold Inst.valueRangeSimplify
      rw [if_neg hbranch, if_pos (Or.inl hop)]
    rw [hsimplify, setInsn_insn]
    exact stepsAlike_refl fn pc s

/-- What `ir_drop_redundant_int_casts_pass` makes of an instruction. -/
theorem dropRedundantIntCast_stepsAlike (hstep : (step H fn (.at pc s)).isSome = true) :
    StepsAlike H fn (fn.setInsn pc ((fn.insn pc).dropRedundantIntCast range)) pc s := by
  by_cases hidentity : (fn.insn pc).vrCastIsIdentity range = true
  · have hop : (fn.insn pc).op = .cast := by
      simp only [Inst.vrCastIsIdentity, decide_eq_true_eq] at hidentity
      exact hidentity.1
    have hcontrol : (fn.insn pc).op.isControl = false := by rw [hop]; rfl
    obtain ⟨c, hc⟩ := isSome_iff_exists.mp hstep
    rw [step_exec hpc hcontrol, map_eq_some_iff] at hc
    obtain ⟨t, hexec, -⟩ := hc
    rw [exec_simple (by simp [Inst.isSimple, hop]), State.result, State.effect, hop] at hexec
    simp only [bind_eq_bind, bind_eq_some_iff] at hexec
    obtain ⟨-, ⟨-, ⟨a, ha, -⟩, -⟩, -⟩ := hexec
    rcases dropRedundantIntCast_stores hsound ha with heq | hstores
    · rw [heq, setInsn_insn]
      exact stepsAlike_refl fn pc s
    · refine hstores.stepsAlike hpc hcontrol (Or.inl ?_)
      unfold Inst.dropRedundantIntCast
      rw [if_pos hidentity]
      rfl
  · have hkeep : (fn.insn pc).dropRedundantIntCast range = fn.insn pc := by
      unfold Inst.dropRedundantIntCast
      rw [if_neg hidentity]
    rw [hkeep, setInsn_insn]
    exact stepsAlike_refl fn pc s

end

end Operands

end Mettle.Ir

import Mettle.Ir.Rewrite
import Mettle.Ir.CseSound
import Mettle.Ir.Words
import Mettle.Lib.Bits

/-!
# The identities hold

A rule of the table is valid when the operator gives the word of the action on all words that match its
patterns. Every rule is (`binaryIdentities_valid`), so a rewritten instruction stores the word it stored
before.
-/

open BitVec hiding and_comm not_not not_or or_comm

namespace Mettle.Ir

open State

/-- The words a pattern matches, beside the word of the other operand. -/
def RwPat.Holds (x y : BitVec 64) : RwPat → Prop
  | .var => True
  | .nonneg => 0 ≤ x.toInt
  | .int value => x = value
  | .intNonzero => x ≠ 0
  | .pow2 => ∃ k, 1 ≤ k ∧ k < 63 ∧ x = BitVec.twoPow 64 k
  | .same => x = y

/-- The word an action leaves for the variable and the other operand. -/
def RwAct.value (isUnsigned : Bool) (x y : BitVec 64) : RwAct → BitVec 64
  | .keepVar => x
  | .const value => value
  | .shlVar => x <<< y.toNat.log2
  | .shrVar => if isUnsigned then x >>> y.toNat.log2 else x.sshiftRight y.toNat.log2
  | .andVar => x &&& (y - 1)

/-- What a rule promises of its operator. -/
structure BinaryIdentity.Valid (rule : BinaryIdentity) : Prop where
  value : ∀ u x y, rule.a.Holds x y → rule.b.Holds y x →
    binaryInt rule.op u x y = some (.ofInt (rule.act.value u x y))
  comm : rule.commutative = true → ∀ u x y, binaryInt rule.op u y x = binaryInt rule.op u x y
  pow2 : rule.act = .shlVar ∨ rule.act = .shrVar ∨ rule.act = .andVar → rule.b = .pow2

/-! ## Powers of two -/

theorem log2_twoPow {k : ℕ} (hk : k < 63) : (twoPow 64 k).toNat.log2 = k := by
  rw [toNat_twoPow_of_lt (by omega), Nat.log2_two_pow]

/-- A power of two below the sign bit is not negative. -/
theorem twoPow_nonneg {k : ℕ} (hk : k < 63) : 0 ≤ (twoPow 64 k).toInt := by
  rw [toInt_twoPow, if_neg (by omega), if_neg (by omega)]
  exact_mod_cast Nat.zero_le _

theorem twoPow_ne_zero {k : ℕ} (hk : k < 63) : twoPow 64 k ≠ 0 := by
  intro h
  have := congrArg BitVec.toNat h
  rw [toNat_twoPow_of_lt (by omega)] at this
  exact absurd this (Nat.two_pow_pos k).ne'

theorem twoPow_ne_neg_one {k : ℕ} (hk : k < 63) : twoPow 64 k ≠ -1 := by
  intro h
  have hnonneg := twoPow_nonneg hk
  rw [h] at hnonneg
  revert hnonneg
  decide

/-- What is taken for a power of two is one. -/
theorem pow2Shift_spec {value : BitVec 64} {k : ℕ} (h : pow2Shift value = some k) :
    k < 63 ∧ value = twoPow 64 k ∧ 0 < value.toInt := by
  unfold pow2Shift at h
  split at h
  · cases h
  · rename_i hcond
    cases h
    rw [not_or, not_not, Bool.not_eq_true, BitVec.sle, decide_eq_false_iff_not] at hcond
    obtain ⟨hpos, hand⟩ := hcond
    have hpos : 0 < value.toInt := by simpa using hpos
    have hnat := Lib.toNat_of_nonneg hpos.le
    obtain ⟨hlt, heq⟩ := Lib.eq_twoPow_of_and (by omega) hand
    refine ⟨?_, heq, hpos⟩
    by_contra hk
    have hlog : value.toNat.log2 = 63 := by omega
    rw [hlog] at heq
    rw [heq] at hpos
    revert hpos
    decide

/-! ## The table -/

variable {x y : BitVec 64} {k : ℕ}

/-- Dividing what is not negative by a power of two is a shift. -/
theorem binaryInt_div_twoPow (u : Bool) (hx : 0 ≤ x.toInt) (hk : k < 63) :
    binaryInt "/" u x (twoPow 64 k) = some (.ofInt (if u then x >>> k else x.sshiftRight k)) := by
  simp only [binaryInt, String.reduceEq, if_false, true_or, if_true, twoPow_ne_zero hk, twoPow_ne_neg_one hk,
    and_false]
  rw [Lib.sdiv_of_nonneg hx (twoPow_nonneg hk), Lib.sshiftRight_of_nonneg hx,
    udiv_twoPow_eq_of_lt (by omega)]
  cases u <;> rfl

/-- Its remainder is a mask. -/
theorem binaryInt_rem_twoPow (u : Bool) (hx : 0 ≤ x.toInt) (hk : k < 63) :
    binaryInt "%" u x (twoPow 64 k) = some (.ofInt (x &&& (twoPow 64 k - 1))) := by
  simp only [binaryInt, String.reduceEq, if_false, or_true, if_true, twoPow_ne_zero hk, twoPow_ne_neg_one hk,
    and_false]
  rw [Lib.srem_of_nonneg hx (twoPow_nonneg hk), Lib.umod_twoPow (by omega)]
  cases u <;> rfl

theorem mul_pow2_valid : BinaryIdentity.Valid ⟨"*", .var, .pow2, true, .shlVar⟩ where
  value := by
    rintro u x y - ⟨k, -, hk, rfl⟩
    simp only [RwAct.value, log2_twoPow hk, ← mul_twoPow_eq_shiftLeft]
    simp [binaryInt]
  comm := fun _ u x y => by simp [binaryInt, BitVec.mul_comm]
  pow2 := fun _ => rfl

/-- A quotient of what is not negative by a power of two is a shift. -/
theorem div_pow2_valid : BinaryIdentity.Valid ⟨"/", .nonneg, .pow2, false, .shrVar⟩ where
  value := by
    rintro u x y hx ⟨k, -, hk, rfl⟩
    simp only [RwAct.value, log2_twoPow hk]
    exact binaryInt_div_twoPow u hx hk
  comm := fun h => by cases h
  pow2 := fun _ => rfl

/-- A remainder of what is not negative by a power of two is a mask. -/
theorem rem_pow2_valid : BinaryIdentity.Valid ⟨"%", .nonneg, .pow2, false, .andVar⟩ where
  value := by
    rintro u x y hx ⟨k, -, hk, rfl⟩
    exact binaryInt_rem_twoPow u hx hk
  comm := fun h => by cases h
  pow2 := fun _ => rfl

/-- All ones keep what they are combined with. -/
theorem and_ones_valid : BinaryIdentity.Valid ⟨"&", .var, .int (-1), true, .keepVar⟩ where
  value := by
    rintro u x y - rfl
    show some (Value.ofInt (x &&& allOnes 64)) = some (.ofInt x)
    rw [and_allOnes]
  comm := fun _ u x y => by simp [binaryInt, BitVec.and_comm]
  pow2 := by simp

/-- All ones stay when something is added to them. -/
theorem or_ones_valid : BinaryIdentity.Valid ⟨"|", .var, .int (-1), true, .const (-1)⟩ where
  value := by
    rintro u x y - rfl
    show some (Value.ofInt (x ||| allOnes 64)) = some (.ofInt (allOnes 64))
    rw [or_allOnes]
  comm := fun _ u x y => by simp [binaryInt, BitVec.or_comm]
  pow2 := by simp

/-- What is true stays true. -/
theorem or_true_valid : BinaryIdentity.Valid ⟨"||", .var, .intNonzero, true, .const 1⟩ where
  value := by
    intro u x y _ hy
    have htrue : x ≠ 0 ∨ y ≠ 0 := Or.inr hy
    show some (Value.ofBool (x ≠ 0 ∨ y ≠ 0)) = some (.ofInt 1)
    rw [decide_eq_true htrue]
    rfl
  comm := fun _ u x y => by simp [binaryInt, or_comm]
  pow2 := by simp

/-- All rules of the table. Apart from the powers of two they are facts about single operators. -/
theorem binaryIdentities_valid : ∀ rule ∈ binaryIdentities, rule.Valid := by
  unfold binaryIdentities
  intro rule hrule
  simp only [List.mem_cons, List.not_mem_nil, or_false] at hrule
  rcases hrule with rfl | rfl | rfl | rfl | rfl | rfl | rfl | rfl | rfl | rfl | rfl | rfl | rfl | rfl | rfl |
    rfl | rfl | rfl | rfl | rfl | rfl | rfl | rfl | rfl | rfl | rfl | rfl | rfl | rfl | rfl
  all_goals
    first
      | exact mul_pow2_valid
      | exact div_pow2_valid
      | exact rem_pow2_valid
      | exact and_ones_valid
      | exact or_ones_valid
      | exact or_true_valid
      | refine ⟨fun u x y ha hb => ?_, fun hcomm u x y => ?_, by simp⟩
        · simp only [RwPat.Holds] at ha hb
          first
            | subst hb
              simp [binaryInt, RwAct.value, Value.ofBool, BitVec.ult, BitVec.ule, BitVec.slt, BitVec.sle]
            | simp [binaryInt, RwAct.value, ha]
        · first
            | exact absurd hcomm (by decide)
            | simp [binaryInt, BitVec.add_comm, BitVec.mul_comm, BitVec.and_comm, BitVec.or_comm,
                BitVec.xor_comm, and_comm]

/-! ## One instruction -/

section Apply

variable {W : Type} {H : Host W} {fn : Function} {s : State W} {i : Inst} {nonneg : Operand → Bool}

variable {o o' : Operand} {a b : BitVec 64} {rule : BinaryIdentity}

/-- A pattern that matches an operand matches its word. -/
theorem rwMatch_holds {pat : RwPat} (hmatch : rwMatch nonneg pat o o' = true) (ha : s.HasWord H o a)
    (hb : s.HasWord H o' b) (hnonneg : nonneg o = true → 0 ≤ a.toInt) : pat.Holds a b := by
  have hint : o.kind = .int → a = o.intValue := fun hk => ha.unique (hasWord_int hk)
  cases pat with
  | var => trivial
  | nonneg => exact hnonneg hmatch
  | int value =>
    simp only [rwMatch, decide_eq_true_eq] at hmatch
    exact (hint hmatch.1).trans hmatch.2
  | intNonzero =>
    simp only [rwMatch, decide_eq_true_eq] at hmatch
    rw [hint hmatch.1]
    exact hmatch.2
  | pow2 =>
    simp only [rwMatch, decide_eq_true_eq] at hmatch
    obtain ⟨hkind, hshift⟩ := hmatch
    rw [Option.any_eq_true] at hshift
    obtain ⟨k, hk, hle⟩ := hshift
    obtain ⟨hlt, heq, -⟩ := pow2Shift_spec hk
    exact ⟨k, by simpa using hle, hlt, (hint hkind).trans heq⟩
  | same =>
    obtain ⟨v, hv, hfloat, rfl⟩ := ha
    have hsame : s.fetch H o = s.fetch H o' := by
      refine fetch_equals hmatch fun hk => ?_
      -- a float literal is no word
      simp only [fetch, hk, Option.some.injEq] at hv
      rw [← hv] at hfloat
      cases hfloat
    exact HasWord.unique ⟨v, hsame ▸ hv, hfloat, rfl⟩ hb

/-- The action stores its word. -/
theorem exec_rwApply (fn : Function) (act : RwAct) (swapped : Bool) {x y : BitVec 64}
    (hx : s.HasWord H (if swapped then i.rhs else i.lhs) x)
    (hstring : (if swapped then i.rhs else i.lhs).kind ≠ .string)
    (hy : act = .shlVar ∨ act = .shrVar ∨ act = .andVar →
      (if swapped then i.lhs else i.rhs).intValue = y ∧ ∃ k, pow2Shift y = some k) :
    (rwApply i act swapped).dest = i.dest ∧ ∃ v, s.exec H fn (rwApply i act swapped) = s.storeDest H i.dest v ∧
      v.isFloat = false ∧ v.i = act.value i.isUnsigned x y := by
  have hshift : ∀ {k}, k < 63 → k % 64 = k := fun hk => Nat.mod_eq_of_lt (by omega)
  -- by what the rule puts in place of the operation
  cases act with
  | keepVar => exact ⟨rfl, exec_assign_word (i := i.rewriteToAssignOperand _) rfl hstring hx⟩
  | const value => exact ⟨rfl, _, exec_assign_literal (i := i.rewriteToAssignOperand _) rfl rfl, rfl, rfl⟩
  | shlVar =>
    obtain ⟨rfl, k, hk⟩ := hy (Or.inl rfl)
    obtain ⟨hlt, hpow, -⟩ := pow2Shift_spec hk
    simp only [rwApply, hk]
    refine ⟨rfl, exec_binary_word (i := i.rwToBinary _ "<<" _) rfl (by simp [Inst.isConcat, Inst.rwToBinary]) rfl
      hx (hasWord_ofInt _) ?_⟩
    simp only [RwAct.value, hpow, log2_twoPow hlt]
    simp [Inst.rwToBinary, binaryInt, hshift hlt]
  | shrVar =>
    obtain ⟨rfl, k, hk⟩ := hy (Or.inr (Or.inl rfl))
    obtain ⟨hlt, hpow, -⟩ := pow2Shift_spec hk
    simp only [rwApply, hk]
    refine ⟨rfl, exec_binary_word (i := i.rwToBinary _ ">>" _) rfl (by simp [Inst.isConcat, Inst.rwToBinary]) rfl
      hx (hasWord_ofInt _) ?_⟩
    simp only [RwAct.value, hpow, log2_twoPow hlt]
    simp [Inst.rwToBinary, binaryInt, hshift hlt]
  | andVar =>
    obtain ⟨rfl, k, hk⟩ := hy (Or.inr (Or.inr rfl))
    obtain ⟨-, -, hpos⟩ := pow2Shift_spec hk
    simp only [rwApply]
    rw [if_neg (by simpa [BitVec.sle] using hpos)]
    refine ⟨rfl, exec_binary_word (i := i.rwToBinary _ "&" _) rfl (by simp [Inst.isConcat, Inst.rwToBinary]) rfl
      hx (hasWord_ofInt _) ?_⟩
    simp [Inst.rwToBinary, binaryInt, RwAct.value]

/-- The operands of an integer instruction hold words; neither is a string literal. -/
structure IntegerOperands (H : Host W) (s : State W) (i : Inst) (a b : BitVec 64) : Prop where
  lhs : s.HasWord H i.lhs a
  rhs : s.HasWord H i.rhs b
  lhs_kind : i.lhs.kind ≠ .string
  rhs_kind : i.rhs.kind ≠ .string

/-- The shift count of a rule that needs one. -/
theorem pow2Shift_of_match (hvalid : rule.Valid) {y : BitVec 64} (hmatch : rwMatch nonneg rule.b o o' = true)
    (hy : s.HasWord H o y) (hact : rule.act = .shlVar ∨ rule.act = .shrVar ∨ rule.act = .andVar) :
    o.intValue = y ∧ ∃ k, pow2Shift y = some k := by
  rw [hvalid.pow2 hact] at hmatch
  simp only [rwMatch, decide_eq_true_eq] at hmatch
  obtain ⟨hkind, hshift⟩ := hmatch
  have hword : o.intValue = y := (hasWord_int hkind).unique hy
  rw [Option.any_eq_true, hword] at hshift
  obtain ⟨k, hk, -⟩ := hshift
  exact ⟨hword, k, hk⟩

/-- A valid identity stores the same as the instruction it is applied to. -/
theorem BinaryIdentity.Valid.apply_stores (hvalid : rule.Valid) {i' : Inst} (hop : i.op = .binary)
    (hfloat : i.isFloat = false) (hconcat : i.isConcat = false) (hints : IntegerOperands H s i a b)
    (hlhs : nonneg i.lhs = true → 0 ≤ a.toInt) (hrhs : nonneg i.rhs = true → 0 ≤ b.toInt)
    (happly : rule.apply nonneg i = some i') : StoresSame H fn s i i' := by
  unfold BinaryIdentity.apply at happly
  split at happly
  · cases happly
  rename_i htext
  rw [not_not] at htext
  have hbefore : ∀ {r}, binaryInt rule.op i.isUnsigned a b = some (.ofInt r) →
      ∃ v, s.exec H fn i = s.storeDest H i.dest v ∧ v.isFloat = false ∧ v.i = r := fun hr =>
    exec_binary_word hop hconcat hfloat hints.lhs hints.rhs (by rw [htext]; exact hr)
  split at happly
  · rename_i hmatch
    cases happly
    have hvalue := hvalid.value i.isUnsigned a b (rwMatch_holds hmatch.1 hints.lhs hints.rhs hlhs)
      (rwMatch_holds hmatch.2 hints.rhs hints.lhs hrhs)
    obtain ⟨v, hv, hvf, hvi⟩ := hbefore hvalue
    obtain ⟨hdest, v', hv', hvf', hvi'⟩ := exec_rwApply fn rule.act false
      hints.lhs hints.lhs_kind (pow2Shift_of_match hvalid hmatch.2 hints.rhs)
    exact ⟨hdest, v, v', hv, hv', hvf, hvf', hvi'.trans hvi.symm⟩
  split at happly
  · rename_i hmatch
    cases happly
    obtain ⟨hcomm, hmatch⟩ := hmatch
    have hvalue := hvalid.value i.isUnsigned b a (rwMatch_holds hmatch.1 hints.rhs hints.lhs hrhs)
      (rwMatch_holds hmatch.2 hints.lhs hints.rhs hlhs)
    rw [hvalid.comm hcomm] at hvalue
    obtain ⟨v, hv, hvf, hvi⟩ := hbefore hvalue
    obtain ⟨hdest, v', hv', hvf', hvi'⟩ := exec_rwApply fn rule.act true
      hints.rhs hints.rhs_kind (pow2Shift_of_match hvalid hmatch.2 hints.lhs)
    exact ⟨hdest, v, v', hv, hv', hvf, hvf', hvi'.trans hvi.symm⟩
  · cases happly

/-- An instruction is left as it is, or the new one stores the same word. -/
theorem applyBinaryIdentities_stores (hconcat : i.isConcat = false) (hints : IntegerOperands H s i a b)
    (hlhs : nonneg i.lhs = true → 0 ≤ a.toInt) (hrhs : nonneg i.rhs = true → 0 ≤ b.toInt) :
    i.applyBinaryIdentities nonneg = i ∨ StoresSame H fn s i (i.applyBinaryIdentities nonneg) := by
  unfold Inst.applyBinaryIdentities
  split
  · exact Or.inl rfl
  rename_i hcond
  simp only [not_or, not_not, Bool.not_eq_true] at hcond
  cases hfind : binaryIdentities.findSome? fun rule => rule.apply nonneg i with
  | none => exact Or.inl rfl
  | some i' =>
    obtain ⟨rule, hmem, happly⟩ := List.exists_of_findSome?_eq_some hfind
    exact Or.inr ((binaryIdentities_valid rule hmem).apply_stores hcond.1 hcond.2.1 hconcat hints hlhs hrhs happly)

end Apply

end Mettle.Ir

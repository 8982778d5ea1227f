import Mettle.Ir.CseAvailable
import Mettle.Ir.Skeleton

/-!
# Common-subexpression elimination preserves meaning

The match of the pass compares the operator, the operands and `is_float`, not the signedness, the
precision or the declared type of the result; the destination that stands for an expression may be too
narrow for its value; and not every write drops the entries it affects. `SafeReuse` excludes these for
one reuse. When every reuse is safe, the output runs in lockstep with the input.
-/

open List
open Option hiding or_self

namespace Mettle.Ir

variable {W : Type} {H : Host W}

/-! ## Meaning of an instruction -/

/-- A cast target whose meaning is in its name. -/
def castTargetIsNamed (type : String) : Bool :=
  castTargetIsPointerShaped type ||
    type ∈ ["float64", "float32", "float16", "bfloat16", "bool"] || (integerCastWidth type).isSome

/-- The result depends on `is_unsigned`. -/
def Inst.readsSign (i : Inst) : Bool :=
  match i.op with
  | .binary => !i.isFloat && i.text.any fun op => op ∈ [">>", "/", "%", "<", "<=", ">", ">="]
  | .cast => i.text.any fun type => type ∈ ["float64", "float32", "float16", "bfloat16"] ||
      (!castTargetIsNamed type && i.valueType.any fun t => t.kind = .float64 ∨ t.kind = .float32)
  | _ => false

/-- The result depends on `float_bits`. -/
def Inst.readsPrecision (i : Inst) : Bool :=
  match i.op with
  | .binary => i.isFloat && i.text.any fun op => op ∈ ["+", "-", "*", "/"]
  | .unary => i.text = some "-"
  | _ => false

/-- The result depends on `value_type`. -/
def Inst.readsType (i : Inst) : Bool :=
  match i.op with
  | .cast => i.text.any fun type => !castTargetIsNamed type
  | _ => false

/-- Two instructions that match have one meaning: what their results depend on besides the operands
agrees, they do not allocate, and float literals that compare equal are the same. -/
structure SameMeaning (i j : Inst) : Prop where
  sign : i.readsSign = true ∨ j.readsSign = true → i.isUnsigned = j.isUnsigned
  precision : j.readsPrecision = true → (i.floatBits = 32 ↔ j.floatBits = 32)
  type : j.readsType = true → i.valueType = j.valueType
  concat : i.isConcat = false ∧ j.isConcat = false
  literals : ∀ a ∈ [i.lhs, i.rhs], ∀ b ∈ [j.lhs, j.rhs], a.equals b = true → a.kind = .float →
    a.floatValue = b.floatValue

namespace State

variable {s s' : State W} {i j : Inst} {v : Value}

/-- Equal operands have equal values, but for floats that are only compared as doubles. -/
theorem fetch_equals {a b : Operand} (h : a.equals b = true)
    (hfloat : a.kind = .float → a.floatValue = b.floatValue) : s.fetch H a = s.fetch H b := by
  unfold Operand.equals at h
  rw [Bool.and_eq_true, decide_eq_true_eq] at h
  obtain ⟨hkind, hfields⟩ := h
  unfold fetch
  rw [← hkind]
  cases hk : a.kind <;> simp only [hk, decide_eq_true_eq] at hfields ⊢
  case int => rw [hfields]
  case float => rw [hfloat hk]
  case string => rw [hfields.2]
  case temp => rw [hfields.2]
  case symbol => rw [hfields.2]

end State

/-! ## Operators -/

variable {op : String}

/-- The signedness does not matter for the other integer operators. -/
theorem binaryInt_sign (h : op ∉ [">>", "/", "%", "<", "<=", ">", ">="]) (u u' : Bool) (x y : BitVec 64) :
    binaryInt op u x y = binaryInt op u' x y := by
  simp only [mem_cons, not_mem_nil, or_false, not_or] at h
  obtain ⟨h₁, h₂, h₃, h₄, h₅, h₆, h₇⟩ := h
  simp only [binaryInt, h₁, h₂, h₃, h₄, h₅, h₆, h₇, or_self, if_false]

/-- The operators that the pass takes for commutative are, on integers. -/
theorem binaryInt_comm (h : binaryOpIsCommutative (some op) = true) (u : Bool) (x y : BitVec 64) :
    binaryInt op u x y = binaryInt op u y x := by
  simp only [binaryOpIsCommutative, mem_cons, some.injEq, not_mem_nil, or_false,
    decide_eq_true_eq] at h
  rcases h with rfl | rfl | rfl | rfl | rfl | rfl | rfl <;> simp only [binaryInt, reduceIte, String.reduceEq, or_self]
  · rw [add_comm]
  · rw [mul_comm]
  · rw [BitVec.and_comm]
  · rw [BitVec.or_comm]
  · rw [BitVec.xor_comm]
  · rw [decide_eq_decide.mpr (eq_comm (a := x) (b := y))]
  · rw [decide_eq_decide.mpr (ne_comm (a := x) (b := y))]

theorem doubleEq_comm (x y : BitVec 64) : doubleEq x y = doubleEq y x := by
  unfold doubleEq
  rw [decide_eq_decide]
  tauto

/-- The operators that the pass takes for commutative are, on floats. -/
theorem FloatOps.binaryFloat_comm (F : FloatOps) (h : binaryOpIsCommutative (some op) = true) (single : Bool)
    (x y : BitVec 64) : F.binaryFloat op single x y = F.binaryFloat op single y x := by
  simp only [binaryOpIsCommutative, mem_cons, some.injEq, not_mem_nil, or_false,
    decide_eq_true_eq] at h
  rcases h with rfl | rfl | rfl | rfl | rfl | rfl | rfl <;>
    simp only [binaryFloat, reduceIte, String.reduceEq]
  · rw [F.add_comm, F.addSingle_comm]
  · rw [F.mul_comm, F.mulSingle_comm]
  · rw [doubleEq_comm]
  · rw [doubleEq_comm]

/-- The width does not matter for comparisons of floats. -/
theorem FloatOps.binaryFloat_single (F : FloatOps) (h : op ∉ ["+", "-", "*", "/"]) (single single' : Bool)
    (x y : BitVec 64) : F.binaryFloat op single x y = F.binaryFloat op single' x y := by
  simp only [mem_cons, not_mem_nil, or_false, not_or] at h
  obtain ⟨h₁, h₂, h₃, h₄⟩ := h
  simp only [binaryFloat, h₁, h₂, h₃, h₄, if_false]

/-- Nor for any unary operator but the negation. -/
theorem FloatOps.unary_single (F : FloatOps) (h : op ≠ "-") (isFloat single single' : Bool) (a : Value) :
    F.unary op isFloat single a = F.unary op isFloat single' a := by
  simp only [unary, h, if_false]

/-- Nor does the signedness of the source for a cast to an integer. -/
theorem FloatOps.castDeclared_sign (F : FloatOps) {t : MtlcType}
    (h : t.kind ≠ .float64 ∧ t.kind ≠ .float32) (u u' : Bool) (a : Value) :
    F.castDeclared t u a = F.castDeclared t u' a := by
  unfold castDeclared
  split
  case h_5 hk => exact absurd hk h.1
  case h_6 hk => exact absurd hk h.2
  all_goals rfl

/-- A cast depends on the sign and on the declared type only where it is said to. -/
theorem FloatOps.cast_same (F : FloatOps) {i j : Inst} {type : String} (hi : i.op = .cast)
    (hj : j.op = .cast) (hti : i.text = some type) (htj : j.text = some type)
    (hsign : i.readsSign = true ∨ j.readsSign = true → i.isUnsigned = j.isUnsigned)
    (htype : j.readsType = true → i.valueType = j.valueType) (a : Value) :
    F.cast type i.valueType i.isUnsigned a = F.cast type j.valueType j.isUnsigned a := by
  simp only [Inst.readsSign, hi, hj, hti, htj, any_some] at hsign
  simp only [Inst.readsType, hj, htj, any_some] at htype
  unfold cast
  by_cases hptr : castTargetIsPointerShaped type = true
  · rw [if_pos hptr, if_pos hptr]
  rw [if_neg hptr, if_neg hptr]
  by_cases hfloat : type ∈ ["float64", "float32", "float16", "bfloat16"]
  · rw [hsign (Or.inl (by simp [hfloat]))]
    simp only [mem_cons, not_mem_nil, or_false] at hfloat
    rcases hfloat with rfl | rfl | rfl | rfl <;> rfl
  have hne := hfloat
  simp only [mem_cons, not_mem_nil, or_false, not_or] at hne
  obtain ⟨h₁, h₂, h₃, h₄⟩ := hne
  simp only [h₁, h₂, h₃, h₄, if_false]
  cases hwidth : integerCastWidth type with
  | some width => rfl
  | none =>
    by_cases hbool : type = "bool"
    · rw [if_pos hbool, if_pos hbool]
    rw [if_neg hbool, if_neg hbool]
    -- the meaning is in the declared type
    have hunnamed : castTargetIsNamed type = false := by
      simp [castTargetIsNamed, hptr, h₁, h₂, h₃, h₄, hbool, hwidth]
    rw [htype (by rw [hunnamed]; rfl)] at hsign ⊢
    cases hvt : j.valueType with
    | none => rfl
    | some t =>
      by_cases hkind : t.kind = .float64 ∨ t.kind = .float32
      · rw [hsign (Or.inl (by simp [hunnamed, hvt, hkind]))]
      · rw [not_or] at hkind
        exact F.castDeclared_sign hkind _ _ a

/-! ## Evaluating a candidate again -/

/-- `ii_binary` of an operator that allocates nothing. -/
def Host.scalar (H : Host W) (i : Inst) (a b : Value) : Option Value :=
  if i.isFloat then
    H.floats.binaryFloat (i.text.getD "?") (i.floatBits = 32) (H.floats.asFloat a) (H.floats.asFloat b)
  else binaryInt (i.text.getD "?") i.isUnsigned (H.floats.asInt a) (H.floats.asInt b)

namespace State

variable {s s' : State W} {i j : Inst} {v : Value}

/-- The value of a candidate. -/
def evaluate (H : Host W) (s : State W) (i : Inst) : Option Value :=
  match i.op with
  | .binary => do
    let a ← s.fetch H i.lhs
    let b ← s.fetch H i.rhs
    let v ← H.scalar i a b
    some { v with undefined := a.undefined || b.undefined }
  | .unary => do
    let a ← s.fetch H i.lhs
    let v ← H.floats.unary (i.text.getD "?") i.isFloat (i.floatBits = 32) a
    some { v with undefined := a.undefined }
  | .cast => do
    let a ← s.fetch H i.lhs
    let v ← H.floats.cast (i.text.getD "") i.valueType i.isUnsigned a
    some { v with undefined := a.undefined }
  | .addressOf => (s.addressOf H i.lhs).map .ofInt
  | _ => none

/-- The effect of a candidate is its value. -/
theorem effect_candidate (hc : i.isCseCandidate = true) (hconcat : i.isConcat = false) (s : State W) :
    s.effect H i = (s.evaluate H i).map fun v => ([v], s.world) := by
  unfold effect evaluate
  rcases op_of_isCseCandidate hc with hop | hop | hop | hop <;> simp only [hop]
  · cases s.fetch H i.lhs with
    | none => rfl
    | some a =>
      cases s.fetch H i.rhs with
      | none => rfl
      | some b =>
        simp only [bind_eq_bind, bind_some, Host.binary, Host.scalar, hconcat,
          Bool.false_eq_true, if_false]
        split
        · cases H.floats.binaryFloat (i.text.getD "?") (i.floatBits = 32) (H.floats.asFloat a)
            (H.floats.asFloat b) <;> rfl
        · cases binaryInt (i.text.getD "?") i.isUnsigned (H.floats.asInt a) (H.floats.asInt b) <;> rfl
  · cases s.fetch H i.lhs with
    | none => rfl
    | some a =>
      simp only [bind_eq_bind, bind_some]
      cases H.floats.unary (i.text.getD "?") i.isFloat (i.floatBits = 32) a <;> rfl
  · cases s.fetch H i.lhs with
    | none => rfl
    | some a =>
      simp only [bind_eq_bind, bind_some]
      cases H.floats.cast (i.text.getD "") i.valueType i.isUnsigned a <;> rfl
  · cases s.addressOf H i.lhs <;> rfl

/-- The value depends on the operands of the entry. -/
theorem evaluate_same (hl : Same H s s' i.exprEntry.lhs) (hr : Same H s s' i.exprEntry.rhs) :
    s'.evaluate H i = s.evaluate H i := by
  unfold Inst.exprEntry at hl hr
  unfold evaluate
  cases hop : i.op <;> simp only [hop] at hl hr ⊢
  case binary => rw [fetch_same hl, fetch_same hr]
  case unary => rw [fetch_same hl]
  case cast => rw [fetch_same hl]
  case addressOf => rw [addressOf_same hl]

/-- Instructions of the same meaning compute the same from the same operands. -/
theorem scalar_same (hm : SameMeaning i j) (hi : i.op = .binary) (hj : j.op = .binary) {op : String}
    (hti : i.text = some op) (htj : j.text = some op) (hfloat : i.isFloat = j.isFloat) (a b : Value) :
    H.scalar i a b = H.scalar j a b := by
  have hsign := hm.sign
  have hprec := hm.precision
  simp only [Inst.readsSign, hi, hj, hti, htj, hfloat, or_self] at hsign
  simp only [Inst.readsPrecision, hj, htj] at hprec
  unfold Host.scalar
  rw [hti, htj, hfloat, getD_some]
  split
  · rename_i hf
    by_cases hop : op ∈ ["+", "-", "*", "/"]
    · have := hprec (by simpa [hf] using hop)
      simp only [this]
    · exact H.floats.binaryFloat_single hop _ _ _ _
  · rename_i hf
    by_cases hop : op ∈ [">>", "/", "%", "<", "<=", ">", ">="]
    · rw [hsign (by simpa [hf] using hop)]
    · exact binaryInt_sign hop _ _ _ _

/-- So do commutative ones with the operands exchanged. -/
theorem scalar_comm {op : String} (hti : i.text = some op)
    (hcomm : binaryOpIsCommutative (some op) = true) (a b : Value) :
    H.scalar i a b = H.scalar i b a := by
  unfold Host.scalar
  rw [hti, getD_some]
  split
  · exact H.floats.binaryFloat_comm hcomm _ _ _
  · exact binaryInt_comm hcomm _ _ _

/-- Instructions that match and have one meaning have one value. -/
theorem evaluate_match (hc : i.isCseCandidate = true)
    (hmatch : i.exprEntry.matchesInst j = true) (hm : SameMeaning i j) :
    s.evaluate H j = s.evaluate H i := by
  have hlit := hm.literals
  have hlhs : ∀ a ∈ [i.lhs, i.rhs], ∀ b ∈ [j.lhs, j.rhs], a.equals b = true →
      s.fetch H b = s.fetch H a := by
    intro a ha b hb hab
    exact (fetch_equals hab (hlit a ha b hb hab)).symm
  unfold ExprEntry.matchesInst at hmatch
  unfold evaluate
  -- a binary, a unary, a cast and an address: what matches is read alike
  rcases op_of_isCseCandidate hc with hop | hop | hop | hop <;>
    simp only [Inst.exprEntry, hop, decide_eq_true_eq] at hmatch ⊢
  · obtain ⟨hj, htext, heq, hfloat, hops⟩ := hmatch
    obtain ⟨op, htj⟩ := isSome_iff_exists.mp htext
    have hti := heq.trans htj
    simp only [hj]
    -- the operands in their order, or swapped where the operator commutes
    rcases hops with ⟨hl, hr⟩ | ⟨hcomm, hl, hr⟩
    · rw [hlhs i.lhs (by simp) j.lhs (by simp) hl, hlhs i.rhs (by simp) j.rhs (by simp) hr]
      simp only [scalar_same hm hop hj hti htj hfloat]
    · rw [hlhs i.lhs (by simp) j.rhs (by simp) hl, hlhs i.rhs (by simp) j.lhs (by simp) hr]
      rw [htj] at hcomm
      cases s.fetch H i.lhs with
      | none => cases s.fetch H i.rhs <;> rfl
      | some a =>
        cases s.fetch H i.rhs with
        | none => rfl
        | some b =>
          simp only [bind_eq_bind, bind_some]
          rw [scalar_same hm hop hj hti htj hfloat, scalar_comm htj hcomm, Bool.or_comm]
  · obtain ⟨hj, htext, heq, hfloat, hl⟩ := hmatch
    obtain ⟨op, htj⟩ := isSome_iff_exists.mp htext
    simp only [hj, hlhs i.lhs (by simp) j.lhs (by simp) hl, heq, htj, getD_some, hfloat]
    have hsame : ∀ a, H.floats.unary op j.isFloat (j.floatBits = 32) a =
        H.floats.unary op j.isFloat (i.floatBits = 32) a := by
      intro a
      by_cases hneg : op = "-"
      · have := hm.precision (by simp [Inst.readsPrecision, hj, htj, hneg])
        simp only [this]
      · exact H.floats.unary_single hneg _ _ _ a
    simp only [hsame]
  · obtain ⟨hj, htext, heq, -, hl⟩ := hmatch
    obtain ⟨type, htj⟩ := isSome_iff_exists.mp htext
    simp only [hj, hlhs i.lhs (by simp) j.lhs (by simp) hl, heq, htj, getD_some]
    simp only [H.floats.cast_same hop hj (heq.trans htj) htj hm.sign hm.type]
  · obtain ⟨hj, hl⟩ := hmatch
    have hkind : i.lhs.kind = j.lhs.kind ∧ (i.lhs.kind = .symbol → i.lhs.name = j.lhs.name) := by
      unfold Operand.equals at hl
      rw [Bool.and_eq_true, decide_eq_true_eq] at hl
      refine ⟨hl.1, fun hk => ?_⟩
      have := hl.2
      rw [hk] at this
      simp only [decide_eq_true_eq] at this
      exact this.2
    simp only [hj, addressOf, ← hkind.1]
    by_cases hk : i.lhs.kind = .symbol
    · rw [hkind.2 hk]
    · rw [if_pos hk, if_pos hk]

end State

/-! ## Safe reuses -/

/-- What makes the reuse of the instruction at `i` by the one at `j` safe: they have one meaning, the
destination holds the value unchanged and apart from the operands, and the instructions in between
write no name of the expression and, when memory may hold one of its symbols, run no kernel. -/
structure SafeReuse (H : Host W) (fn : Function) (addrTaken : String → Bool) (i j : ℕ) : Prop where
  meaning : SameMeaning (fn.insn i) (fn.insn j)
  apart : ∀ x, (fn.insn i).dest.var = some x →
    (fn.insn i).exprEntry.lhs.var ≠ some x ∧ (fn.insn i).exprEntry.rhs.var ≠ some x
  wide : ∀ x, (fn.insn i).dest.var = some x → Wide H fn x
  host : ∀ x, (fn.insn i).dest.kind = .symbol → (fn.insn i).dest.name = some x →
    ∀ w v w', H.storeVar w x v = some w' → H.loadVar w' x = some v
  unwritten : ∀ k, i < k → k < j → ∀ x, (fn.insn i).exprEntry.Names x → (fn.insn k).writesName x = false
  unaliased : ∀ k, i < k → k < j → (fn.insn k).op.isKernel = true →
    (fn.insn i).exprEntry.isAliasable addrTaken = false

variable {fn : Function} {addrTaken : String → Bool} {i j k pc : ℕ} {s s' : State W}

/-- What an instruction leaves in the table: the entries it does not clear or alias, and its own. -/
theorem mem_cachedAfter {cached : List ℕ} (h : k ∈ fn.cachedAfter addrTaken cached j (fn.insn j)) :
    (fn.insn j).op ≠ .label ∧ (fn.insn j).clearsTable = false ∧
      (k ∈ cached ∧ ((fn.insn j).op = .store →
          (fn.insn k).exprEntry.isAliasable addrTaken = false) ∨
        k = j ∧ (fn.insn j).isCseCandidate = true ∧
          ∀ k' ∈ fn.spared cached (fn.insn j), (fn.insn k').exprEntry.matchesInst (fn.insn j) = false) := by
  unfold Function.cachedAfter at h
  split at h
  · cases h
  · rename_i hflow
    rw [not_or, Bool.not_eq_true] at hflow
    refine ⟨hflow.1, hflow.2, ?_⟩
    have hsub : k ∈ fn.spared cached (fn.insn j) → k ∈ cached := mem_of_mem_filter
    split at h
    · rw [mem_filter, Bool.not_eq_true'] at h
      exact Or.inl ⟨h.1, fun _ => h.2⟩
    · rename_i hstore
      split at h
      · rename_i hcand
        rcases mem_append.mp h with h | h
        · exact Or.inl ⟨hsub h, fun hop => absurd hop hstore⟩
        · refine Or.inr ⟨mem_singleton.mp h, hcand.1, fun k' hk' => ?_⟩
          simpa using List.all_eq_true.mp hcand.2.2 k' hk'
      · exact Or.inl ⟨hsub h, fun hop => absurd hop hstore⟩

theorem lt_of_mem_cached (h : k ∈ fn.cached addrTaken j) : k < j := by
  induction j with
  | zero => cases h
  | succ j ih =>
    rcases (mem_cachedAfter h).2.2 with ⟨hold, -⟩ | ⟨rfl, -⟩
    · exact Nat.lt_succ_of_lt (ih hold)
    · exact Nat.lt_succ_self _

/-- An instruction stays cached from itself up to where it is cached. -/
theorem mem_cached_of_le (h : k ∈ fn.cached addrTaken j) (hk : k < pc) (hpc : pc ≤ j) :
    k ∈ fn.cached addrTaken pc := by
  induction j with
  | zero => cases h
  | succ j ih =>
    rcases hpc.eq_or_lt with rfl | hlt
    · exact h
    · rcases (mem_cachedAfter h).2.2 with ⟨hold, -⟩ | ⟨rfl, -⟩
      · exact ih hold (by omega)
      · omega

/-- Between an instruction and its reuse nothing ends the block or calls, and stores do not reach it. -/
theorem Function.Reuses.between (h : fn.Reuses addrTaken i j) (hi : i < k) (hk : k < j) :
    (fn.insn k).op ≠ .label ∧ (fn.insn k).clearsTable = false ∧
      ((fn.insn k).op = .store → (fn.insn i).exprEntry.isAliasable addrTaken = false) := by
  have hmem := mem_cached_of_le (mem_of_mem_filter h.1) (show i < k + 1 by omega) hk
  obtain ⟨hlabel, hclear, hcase⟩ := mem_cachedAfter hmem
  refine ⟨hlabel, hclear, ?_⟩
  rcases hcase with ⟨-, hstore⟩ | ⟨rfl, -⟩
  · exact hstore
  · omega

/-- A reused instruction is before the one that reuses it. -/
theorem Function.Reuses.lt (h : fn.Reuses addrTaken i j) : i < j := lt_of_mem_cached (mem_of_mem_filter h.1)

/-- A reused instruction is a candidate and reuses nothing itself. -/
theorem Function.Reuses.source (h : fn.Reuses addrTaken i j) :
    (fn.insn i).isCseCandidate = true ∧ ∀ k, ¬ fn.Reuses addrTaken k i := by
  have hmem := mem_cached_of_le (mem_of_mem_filter h.1) (Nat.lt_succ_self i) h.lt
  rcases (mem_cachedAfter hmem).2.2 with ⟨hold, -⟩ | ⟨-, hc, hfresh⟩
  · exact absurd (lt_of_mem_cached hold) (Nat.lt_irrefl i)
  · refine ⟨hc, fun k hk => ?_⟩
    have hmatch := hk.2.2
    rw [hfresh k hk.1] at hmatch
    cases hmatch

/-! ## Runs -/

/-- Before the instruction at `pc`: the destination of every instruction that is still to be reused
holds the value its expression has. -/
structure Available (H : Host W) (fn : Function) (addrTaken : String → Bool) (pc : ℕ) (s : State W) :
    Prop where
  widths : s.Widths H fn
  value : ∀ i j, fn.Reuses addrTaken i j → i < pc → pc ≤ j →
    (fn.insn i).dest.kind ≠ .string ∧
      ∃ v, s.evaluate H (fn.insn i) = some v ∧ s.fetch H (fn.insn i).dest = some v

/-- No reuse crosses a place that control may come to from elsewhere. -/
theorem available_of_widths (hs : s.Widths H fn)
    (hcross : ∀ i j, fn.Reuses addrTaken i j → i < pc → pc ≤ j → False) :
    Available H fn addrTaken pc s :=
  ⟨hs, fun i j h hi hj => (hcross i j h hi hj).elim⟩

/-- A candidate computes one value and stores it. -/
theorem exec_candidate {i : Inst} (hc : i.isCseCandidate = true) (hconcat : i.isConcat = false) :
    s.exec H fn i = (s.evaluate H i).bind fun v => s.storeDest H i.dest v := by
  have hresults : i.op ≠ .declareLocal ∧ i.results = [i.dest] := by
    rcases op_of_isCseCandidate hc with hop | hop | hop | hop <;> simp [Inst.results, hop]
  unfold State.exec
  rw [if_neg hresults.1, State.effect_candidate hc hconcat, hresults.2]
  cases s.evaluate H i with
  | none => rfl
  | some v =>
    exact bind_fun_some _

/-- An entry that no store can change has no operand that one can. -/
theorem isAliasable_operand {e : ExprEntry} (h : e.isAliasable addrTaken = false) :
    e.lhs.isAliasable addrTaken = false ∧ e.rhs.isAliasable addrTaken = false ∧
      e.value.isAliasable addrTaken = false := by
  unfold ExprEntry.isAliasable at h
  rw [Bool.or_eq_false_iff, Bool.or_eq_false_iff] at h
  exact ⟨h.1.1, h.1.2, h.2⟩

/-- A step that falls through keeps what is available. -/
theorem available_exec (hlaw : H.Lawful addrTaken)
    (hsafe : ∀ i j, fn.Reuses addrTaken i j → SafeReuse H fn addrTaken i j)
    (h : Available H fn addrTaken pc s) (hpc : pc < fn.instructions.length)
    (hexec : s.exec H fn (fn.insn pc) = some s') : Available H fn addrTaken (pc + 1) s' := by
  have hmem : fn.insn pc ∈ fn.instructions := by
    unfold Function.insn
    rw [getD_eq_getElem _ _ hpc]
    exact getElem_mem hpc
  refine ⟨State.exec_widths hmem h.widths hexec, fun i j hij hi hj => ?_⟩
  have hs := hsafe i j hij
  rcases (Nat.lt_succ_iff.mp hi).eq_or_lt with rfl | hlt
  · -- the instruction itself: its destination now holds its value
    have hc := hij.source.1
    rw [exec_candidate hc hs.meaning.concat.1, bind_eq_some_iff] at hexec
    obtain ⟨v, hv, hstore⟩ := hexec
    refine ⟨fun hk => ?_, v, ?_, ?_⟩
    · simp [State.storeDest, hk] at hstore
    · rw [State.evaluate_same (State.storeDest_same hlaw hstore fun x hx hd => (hs.apart x hd).1 hx)
        (State.storeDest_same hlaw hstore fun x hx hd => (hs.apart x hd).2 hx)]
      exact hv
    · refine State.fetch_storeDest h.widths hstore ?_ hs.wide fun x hk hx w w' => hs.host x hk hx w v w'
      have := hc
      unfold Inst.isCseCandidate at this
      rw [Bool.and_eq_true, decide_eq_true_eq] at this
      exact this.1
  · -- an earlier one: the step touches none of its names
    obtain ⟨hkind, v, hv, hfetch⟩ := h.value i j hij hlt (by omega)
    obtain ⟨-, hclear, hstore⟩ := hij.between hlt hj
    have hcall : (fn.insn pc).op ≠ .call ∧ (fn.insn pc).op ≠ .callIndirect := by
      constructor <;> intro hop <;> simp [Inst.clearsTable, hop] at hclear
    have hunwritten := hs.unwritten pc hlt hj
    have halias : (fn.insn pc).op = .store ∨ (fn.insn pc).op.isKernel = true →
        (fn.insn i).exprEntry.isAliasable addrTaken = false := by
      rintro (hop | hop)
      · exact hstore hop
      · exact hs.unaliased pc hlt hj hop
    have hl := State.exec_same hlaw hexec hcall (fun x hx => hunwritten x (Or.inl hx))
      fun hop => (isAliasable_operand (halias hop)).1
    have hr := State.exec_same hlaw hexec hcall (fun x hx => hunwritten x (Or.inr (Or.inl hx)))
      fun hop => (isAliasable_operand (halias hop)).2.1
    have hd := State.exec_same hlaw hexec hcall (fun x hx => hunwritten x (Or.inr (Or.inr hx)))
      fun hop => (isAliasable_operand (halias hop)).2.2
    rw [value_exprEntry] at hd
    exact ⟨hkind, v, (State.evaluate_same hl hr).trans hv, (State.fetch_same hd).trans hfetch⟩

/-! ## Lockstep -/

/-- The output of the pass: each instruction is as it was or a copy. -/
structure Rewritten (fn out : Function) (addrTaken : String → Bool) : Prop where
  rest : out = { fn with instructions := out.instructions }
  length : out.instructions.length = fn.instructions.length
  outcome : ∀ j < fn.instructions.length, fn.Outcome addrTaken j (out.insn j)

variable {out : Function}

section

variable (h : Rewritten fn out addrTaken)
include h

/-- A label stays where it is. -/
theorem Rewritten.label (hj : j < fn.instructions.length) (name : String) :
    ((out.insn j).op = .label ∧ (out.insn j).text = some name) ↔
      ((fn.insn j).op = .label ∧ (fn.insn j).text = some name) := by
  rcases h.outcome j hj with ⟨heq, -⟩ | ⟨i, hij, heq⟩
  · rw [heq]
  · have hop : (fn.insn j).op ≠ .label := by
      rcases op_of_isCseCandidate hij.2.1 with hop | hop | hop | hop <;> rw [hop] <;> decide
    rw [heq]
    constructor
    · rintro ⟨habs, -⟩
      cases habs
    · rintro ⟨habs, -⟩
      exact absurd habs hop

/-- The rewritten function has its labels where they were. -/
theorem Rewritten.findLabel (name : Option String) : out.findLabel name = fn.findLabel name :=
  Function.findLabel_congr h.length (fun _ hj name => h.label hj name) name

/-- A symbol whose address is taken keeps an instruction that takes it. -/
theorem Rewritten.addressTaken (x : String) : out.addressTaken x = fn.addressTaken x := by
  rw [Bool.eq_iff_iff, Function.addressTaken_iff, Function.addressTaken_iff, h.length]
  constructor
  · rintro ⟨j, hj, hop, hsym⟩
    rcases h.outcome j hj with ⟨heq, -⟩ | ⟨i, -, heq⟩
    · exact ⟨j, hj, heq ▸ hop, heq ▸ hsym⟩
    · rw [heq] at hop
      cases hop
  · rintro ⟨j, hj, hop, hkind, hname⟩
    rcases h.outcome j hj with ⟨heq, -⟩ | ⟨i, hij, -⟩
    · exact ⟨j, hj, heq ▸ hop, heq ▸ hkind, heq ▸ hname⟩
    · -- the instruction whose value is reused takes the same address and stays
      have hi := hij.lt.trans hj
      rcases h.outcome i hi with ⟨heq, -⟩ | ⟨k, hki, -⟩
      · refine ⟨i, hi, ?_⟩
        have hmatch := hij.2.2
        unfold ExprEntry.matchesInst at hmatch
        rw [heq]
        rcases op_of_isCseCandidate hij.source.1 with hi' | hi' | hi' | hi' <;>
          simp only [Inst.exprEntry, hi', decide_eq_true_eq, hop, reduceCtorEq, false_and] at hmatch
        have heq' := hmatch.2
        unfold Operand.equals at heq'
        rw [Bool.and_eq_true, decide_eq_true_eq, hkind] at heq'
        obtain ⟨hk, hn⟩ := heq'
        rw [hk] at hn
        simp only [decide_eq_true_eq] at hn
        exact ⟨hi', hk, hn.2.trans hname⟩
      · exact absurd hki (hij.source.2 k)

/-- Instructions do the same in the rewritten function. -/
theorem Rewritten.exec (i : Inst) : s.exec H out i = s.exec H fn i :=
  exec_congr_addressTaken h.addressTaken i

end

/-- A copy does what the instruction it replaces does. -/
theorem exec_reuse (hsafe : SafeReuse H fn addrTaken i j) (hij : fn.Reuses addrTaken i j)
    (hs : Available H fn addrTaken j s) :
    s.exec H fn ((fn.insn j).rewriteToAssignOperand (fn.insn i).dest) = s.exec H fn (fn.insn j) := by
  obtain ⟨hkind, v, hv, hfetch⟩ := hs.value i j hij hij.lt le_rfl
  rw [exec_candidate hij.2.1 hsafe.meaning.concat.2,
    State.evaluate_match hij.source.1 hij.2.2 hsafe.meaning, hv, bind_some]
  have hassigned : s.assigned H ((fn.insn j).rewriteToAssignOperand (fn.insn i).dest) = some v := by
    unfold State.assigned
    rw [if_neg (fun hstring => hkind hstring.1)]
    exact hfetch
  unfold State.exec
  change ((s.assigned H _).map fun v => ([v], s.world)).bind _ = _
  rw [hassigned]
  exact bind_fun_some _

/-- One step of the output is one step of the input. -/
theorem step_rewritten (h : Rewritten fn out addrTaken)
    (hsafe : ∀ i j, fn.Reuses addrTaken i j → SafeReuse H fn addrTaken i j)
    (hs : Available H fn addrTaken pc s) : step H out (.at pc s) = step H fn (.at pc s) := by
  have hreturn : ∀ F v, out.narrowReturn F v = fn.narrowReturn F v := by
    intro F v
    unfold Function.narrowReturn
    rw [h.rest]
  simp only [step, h.length]
  by_cases hpc : fn.instructions.length ≤ pc
  · rw [if_pos hpc, if_pos hpc]
  rw [if_neg hpc, if_neg hpc]
  rcases h.outcome pc (by omega) with ⟨heq, -⟩ | ⟨i, hij, heq⟩
  · simp only [heq, h.findLabel, hreturn, h.exec]
  · -- both fall through
    rw [heq]
    have hexec := exec_reuse (hsafe i pc hij) hij hs
    change (s.exec H out _).map _ = _
    rw [h.exec, hexec]
    rcases op_of_isCseCandidate hij.2.1 with hop | hop | hop | hop <;> simp only [hop]

/-- A step of the input keeps what is available. -/
theorem available_step (hlaw : H.Lawful addrTaken)
    (hsafe : ∀ i j, fn.Reuses addrTaken i j → SafeReuse H fn addrTaken i j)
    (hs : Available H fn addrTaken pc s) {pc' : ℕ} (h : step H fn (.at pc s) = some (.at pc' s')) :
    Available H fn addrTaken pc' s' := by
  -- a label cuts every reuse across it
  have hlabel : ∀ name t, fn.findLabel name = some t → Available H fn addrTaken t s := by
    intro name t ht
    refine available_of_widths hs.widths fun i j hij hi hj => ?_
    have hop := (findLabel_op ht).2.1
    rcases hj.eq_or_lt with rfl | hj
    · rcases op_of_isCseCandidate hij.2.1 with hop' | hop' | hop' | hop' <;>
        rw [hop'] at hop <;> cases hop
    · exact (hij.between hi hj).1 hop
  -- so does a branch
  have hbranch : (fn.insn pc).clearsTable = true → Available H fn addrTaken (pc + 1) s := by
    intro hclear
    refine available_of_widths hs.widths fun i j hij hi hj => ?_
    have hmem := mem_cached_of_le (mem_of_mem_filter hij.1) hi hj
    have := (mem_cachedAfter hmem).2.1
    rw [hclear] at this
    cases this
  obtain ⟨hpc, ⟨rfl, hfind, -⟩ | ⟨rfl, rfl, hop⟩ | ⟨hexec, rfl, -⟩⟩ := step_cases h
  · exact hlabel _ _ hfind
  · refine hbranch ?_
    rcases hop with hop | hop <;> simp [Inst.clearsTable, hop]
  · exact available_exec hlaw hsafe hs hpc hexec

/-- Runs from a place where the reused values are available. -/
theorem stepN_rewritten (h : Rewritten fn out addrTaken) (hlaw : H.Lawful addrTaken)
    (hsafe : ∀ i j, fn.Reuses addrTaken i j → SafeReuse H fn addrTaken i j) (n : ℕ) :
    ∀ {pc s}, Available H fn addrTaken pc s → stepN H out n (.at pc s) = stepN H fn n (.at pc s) :=
  stepN_congr (step_rewritten h hsafe) (fun hs => available_step hlaw hsafe hs) n

/-- The pass preserves every run from the entry when every reuse is safe. -/
theorem cse_preserves (H : Host W) (hash : String → UInt64) (aliasGlobals : List String) (fn : Function)
    (hlaw : H.Lawful (fn.addrTaken aliasGlobals))
    (hsafe : ∀ i j, fn.Reuses (fn.addrTaken aliasGlobals) i j →
      SafeReuse H fn (fn.addrTaken aliasGlobals) i j) :
    ∃ out, irCommonSubexpressionEliminationPass hash aliasGlobals fn = some out ∧
      ∀ s : State W, fn.Entry s → ∀ n, stepN H out n (.at 0 s) = stepN H fn n (.at 0 s) := by
  obtain ⟨insts, hpass, hlen, houtcome⟩ := cse_outcome hash aliasGlobals fn
  refine ⟨_, hpass, fun s hs n => ?_⟩
  have hrewritten : Rewritten fn { fn with instructions := insts } (fn.addrTaken aliasGlobals) :=
    ⟨rfl, hlen, houtcome⟩
  refine stepN_rewritten hrewritten hlaw hsafe n ?_
  exact available_of_widths (State.widths_entry hs) fun i j _ hi _ => absurd hi (Nat.not_lt_zero i)

/-- `t1 = a op b; t2 = a op b; return t2`, the second one signed or not. -/
def repeated (op : String) (isUnsigned : Bool) : Function where
  parameterNames := ["a", "b"]
  parameterTypes := [some "int64", some "int64"]
  instructions := [
    { op := .binary, text := some op, dest := .ofTemp "t1", lhs := .ofSymbol "a", rhs := .ofSymbol "b" },
    { op := .binary, text := some op, dest := .ofTemp "t2", lhs := .ofSymbol "a", rhs := .ofSymbol "b",
      isUnsigned := isUnsigned },
    { op := .return, lhs := .ofTemp "t2" }]

/-- The entry of `repeated` with the arguments `a` and `b`. -/
def repeatedEntry (a b : BitVec 64) : State Unit where
  env := fun x =>
    if x = "a" then some { value := .ofInt a, size := 8 }
    else if x = "b" then some { value := .ofInt b, size := 8 }
    else none
  world := ()

/-- The entry of the example. -/
theorem repeatedEntry_entry (op : String) (u : Bool) (a b : BitVec 64) :
    (repeated op u).Entry (repeatedEntry a b) := by
  have hint : parseLocalType (some "int64") = some { elemSize := 8 } := by decide
  intro x var hvar
  simp only [repeatedEntry] at hvar
  split at hvar
  · rename_i hx
    cases hvar
    exact ⟨0, by simp [repeated, hx], by simp [Function.parameterWidth, repeated, hint]⟩
  · split at hvar
    · rename_i hx
      cases hvar
      exact ⟨1, by simp [repeated, hx], by simp [Function.parameterWidth, repeated, hint]⟩
    · cases hvar

/-- The second of two signed divisions takes the value of the first. -/
theorem cse_preserves_repeated_division :
    (repeated "/" false).Reuses ((repeated "/" false).addrTaken []) 0 1 ∧
      ∃ out, irCommonSubexpressionEliminationPass (fun _ => 1) [] (repeated "/" false) = some out ∧
        ∀ s : State Unit, (repeated "/" false).Entry s → ∀ n,
          stepN .scalars out n (.at 0 s) = stepN .scalars (repeated "/" false) n (.at 0 s) := by
  refine ⟨by decide, cse_preserves .scalars (fun _ => 1) [] (repeated "/" false)
    (Host.scalars_lawful _) fun i j hij => ?_⟩
  -- the second division is the only one that reuses a value
  obtain ⟨rfl, rfl⟩ : i = 0 ∧ j = 1 := by
    have hlt := hij.lt
    have hj : j < 3 := by
      by_contra hj
      have hc := hij.2.1
      unfold Function.insn at hc
      rw [List.getD_eq_default _ _ (by simp [repeated]; omega)] at hc
      cases hc
    interval_cases j
    · omega
    · exact ⟨by omega, rfl⟩
    · have hc := hij.2.1
      cases hc
  refine ⟨⟨by decide, by decide, by decide, by decide, by decide⟩, ?_, ?_, ?_, ?_, ?_⟩
  · intro x hx
    cases hx
    decide
  · intro x hx
    cases hx
    refine ⟨fun i hi hop => ?_, fun k hk => ?_⟩
    · simp only [repeated, List.mem_cons, List.not_mem_nil, or_false] at hi
      rcases hi with rfl | rfl | rfl <;> cases hop
    · rcases k with _ | _ | k <;> simp [repeated] at hk
  · intro x hk
    cases hk
  · intro k h₀ h₁
    omega
  · intro k h₀ h₁
    omega

/-- An unsigned division takes the value of a signed one. -/
theorem cse_unsound_unsigned_division :
    ¬ ∀ (H : Host Unit) (hash : String → UInt64) (aliasGlobals : List String) (fn out : Function),
      H.Lawful (fn.addrTaken aliasGlobals) →
      irCommonSubexpressionEliminationPass hash aliasGlobals fn = some out →
      ∀ s : State Unit, fn.Entry s → ∀ n, stepN H out n (.at 0 s) = stepN H fn n (.at 0 s) := by
  intro h
  obtain ⟨out, hout⟩ : ∃ out, irCommonSubexpressionEliminationPass (fun _ => 1) [] (repeated "/" true) =
      some out := Option.isSome_iff_exists.mp (by decide)
  have hrun := h .scalars (fun _ => 1) [] (repeated "/" true) out (Host.scalars_lawful _) hout
    (repeatedEntry (-2) 2) (repeatedEntry_entry "/" true (-2) 2) 3
  have hfn : (stepN .scalars (repeated "/" true) 3 (.at 0 (repeatedEntry (-2) 2))).bind Config.value =
      some (.ofInt 0x7FFFFFFFFFFFFFFF) := by decide
  have hnew : ((irCommonSubexpressionEliminationPass (fun _ => 1) [] (repeated "/" true)).bind fun out =>
      (stepN .scalars out 3 (.at 0 (repeatedEntry (-2) 2))).bind Config.value) = some (.ofInt (-1)) := by
    decide
  rw [hout, Option.bind_some, hrun, hfn] at hnew
  exact absurd hnew (by decide)

end Mettle.Ir

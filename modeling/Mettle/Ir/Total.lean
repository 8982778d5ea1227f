import Mettle.Ir.Agree

/-!
# Instructions that cannot stop

A pass that executes an instruction where the source did not, or leaves one out, relies on the
instruction not stopping with an error. Scalar instructions stop when an operand is not in scope, when the
operator or type is unknown, or when a division faults (`exec_isSome`).
-/

open Option

namespace Mettle.Ir

/-- The interpreter knows the operator of the instruction, or the type it casts to. -/
def Inst.isKnown (F : FloatOps) (i : Inst) : Bool :=
  match i.op with
  | .binary =>
    if i.isFloat then (F.binaryFloat (i.text.getD "?") false 0 0).isSome
    else (binaryInt (i.text.getD "?") false 1 1).isSome
  | .unary => (F.unary (i.text.getD "?") false false (.ofInt 0)).isSome
  | .cast => (F.cast (i.text.getD "") i.valueType false (.ofInt 0)).isSome
  | _ => true

variable {F : FloatOps} {op : String}

/-- Whether an operator on floats is known does not depend on its operands. -/
theorem FloatOps.binaryFloat_isSome (h : (F.binaryFloat op false 0 0).isSome = true) (single : Bool) (x y : BitVec 64) :
    (F.binaryFloat op single x y).isSome = true := by
  rw [← h]
  simp only [binaryFloat, apply_ite isSome, isSome_some]

/-- Nor does it for an operator on integers that does not divide. -/
theorem binaryInt_isSome (hdiv : op ≠ "/" ∧ op ≠ "%") (h : (binaryInt op false 1 1).isSome = true) (isUnsigned : Bool)
    (x y : BitVec 64) : (binaryInt op isUnsigned x y).isSome = true := by
  rw [← h]
  have hnot : ¬ (op = "/" ∨ op = "%") := not_or.mpr hdiv
  simp only [binaryInt, if_neg hnot, apply_ite isSome, isSome_some]

/-- Nor for a unary operator. -/
theorem FloatOps.unary_isSome (h : (F.unary op false false (.ofInt 0)).isSome = true) (isFloat single : Bool)
    (v : Value) : (F.unary op isFloat single v).isSome = true := by
  rw [← h]
  simp only [unary, apply_ite isSome, isSome_some, ite_self]

/-- Nor for a cast to a declared type. -/
theorem FloatOps.castDeclared_isSome {t : MtlcType} (h : (F.castDeclared t false (.ofInt 0)).isSome = true)
    (isUnsigned : Bool) (v : Value) : (F.castDeclared t isUnsigned v).isSome = true := by
  unfold castDeclared at h ⊢
  cases hk : t.kind <;> simp only [hk] at h ⊢ <;> first | rfl | simpa using h

/-- Nor for a cast by name. -/
theorem FloatOps.cast_isSome {type : String} {valueType : Option MtlcType}
    (h : (F.cast type valueType false (.ofInt 0)).isSome = true) (isUnsigned : Bool) (v : Value) :
    (F.cast type valueType isUnsigned v).isSome = true := by
  rw [cast] at h ⊢
  cases hwidth : integerCastWidth type with
  | some width => simp only [apply_ite isSome, isSome_some, ite_self]
  | none =>
    rw [hwidth] at h
    have hdeclared : (valueType.bind fun t => F.castDeclared t false (.ofInt 0)).isSome = true →
        (valueType.bind fun t => F.castDeclared t isUnsigned v).isSome = true := by
      intro hsome
      cases valueType with
      | none => cases hsome
      | some t => exact castDeclared_isSome hsome isUnsigned v
    split_ifs at h ⊢ <;> first | rfl | exact hdeclared h

/-- `ir_binary_divide_may_fault`. -/
def Inst.divideMayFault (i : Inst) : Bool :=
  i.op = .binary ∧ i.isFloat = false ∧ (i.text = some "/" ∨ i.text = some "%") ∧
    ¬ (i.rhs.kind = .int ∧ i.rhs.intValue ≠ 0 ∧ i.rhs.intValue ≠ -1)

/-- A division by a word other than zero has a result. -/
theorem binaryInt_divide_isSome (hop : op = "/" ∨ op = "%") {y : BitVec 64} (hy : y ≠ 0) (isUnsigned : Bool)
    (x : BitVec 64) : (binaryInt op isUnsigned x y).isSome = true := by
  rcases hop with rfl | rfl <;> simpa [binaryInt, apply_ite isSome] using hy

variable {W : Type} {H : Host W}

/-- The operands of an instruction have values, and a symbol whose address it takes has one. -/
def State.InScope (H : Host W) (s : State W) (i : Inst) : Prop :=
  if i.op = .addressOf then ∃ a, s.addressOf H i.lhs = some a
  else ∀ o ∈ i.sources, ∃ v, s.fetch H o = some v

namespace State

variable {s : State W} {i : Inst} {fn : Function}

/-- The operator has a result on words, if the division does not fault. -/
theorem binary_isSome (hop : i.op = .binary) (hfault : i.divideMayFault = false)
    (hconcat : i.isConcat = false) (hknown : i.isKnown H.floats = true) {a b : Value}
    (hb : s.fetch H i.rhs = some b) (w : W) : ∃ r, H.binary w i a b = some r := by
  unfold Inst.isKnown at hknown
  simp only [hop] at hknown
  unfold Host.binary
  rw [hconcat, if_neg Bool.false_ne_true]
  by_cases hfloat : i.isFloat = true
  · rw [if_pos hfloat] at hknown ⊢
    obtain ⟨v, hv⟩ := isSome_iff_exists.mp (FloatOps.binaryFloat_isSome hknown
      (i.floatBits = 32) (H.floats.asFloat a) (H.floats.asFloat b))
    exact ⟨(v, w), by rw [hv, map_some]⟩
  rw [if_neg hfloat] at hknown ⊢
  have hsome : (binaryInt (i.text.getD "?") i.isUnsigned (H.floats.asInt a) (H.floats.asInt b)).isSome =
      true := by
    by_cases hdiv : i.text = some "/" ∨ i.text = some "%"
    · -- the divisor is a literal
      have hliteral : i.rhs.kind = .int ∧ i.rhs.intValue ≠ 0 ∧ i.rhs.intValue ≠ -1 := by
        by_contra hnot
        simp only [Inst.divideMayFault, decide_eq_false_iff_not] at hfault
        exact hfault ⟨hop, by simpa using hfloat, hdiv, hnot⟩
      have hb' : b = .ofInt i.rhs.intValue := by
        unfold fetch at hb
        rw [hliteral.1] at hb
        exact (some.inj hb).symm
      rw [hb']
      refine binaryInt_divide_isSome ?_ hliteral.2.1 _ _
      rcases hdiv with h | h <;> simp [h]
    · refine binaryInt_isSome ?_ hknown _ _ _
      cases htext : i.text <;> simp_all
  obtain ⟨v, hv⟩ := isSome_iff_exists.mp hsome
  exact ⟨(v, w), by rw [hv, map_some]⟩

section

variable (hop : i.op ∈ ([.assign, .addressOf, .binary, .unary, .cast] : List Opcode))
include hop

/-- A computation that cannot fault has a result when its operands are in scope. -/
theorem result_isSome (hfault : i.divideMayFault = false) (hconcat : i.op = .binary → i.isConcat = false)
    (hknown : i.isKnown H.floats = true) (hdest : i.dest.isSymbol = false) (hscope : s.InScope H i) :
    ∃ v, s.result H i = some v := by
  simp only [List.mem_cons, List.not_mem_nil, or_false] at hop
  unfold InScope Inst.sources at hscope
  unfold result effect
  rcases hop with hop | hop | hop | hop | hop <;> simp only [hop, reduceCtorEq, if_true, if_false] at hscope ⊢
  · obtain ⟨v, hv⟩ := hscope i.lhs (by simp)
    exact ⟨v, by simp [assigned, hdest, hv]⟩
  · obtain ⟨a, ha⟩ := hscope
    exact ⟨.ofInt a, by simp [ha]⟩
  · obtain ⟨a, ha⟩ := hscope i.lhs (by simp)
    obtain ⟨b, hb⟩ := hscope i.rhs (by simp)
    obtain ⟨r, hr⟩ := binary_isSome hop hfault (hconcat hop) hknown hb s.world (a := a)
    exact ⟨_, by simp only [bind_eq_bind, ha, hb, bind_some, hr]; rfl⟩
  · obtain ⟨a, ha⟩ := hscope i.lhs (by simp)
    simp only [Inst.isKnown, hop] at hknown
    obtain ⟨v, hv⟩ := isSome_iff_exists.mp (FloatOps.unary_isSome hknown i.isFloat
      (i.floatBits = 32) a)
    exact ⟨_, by simp only [bind_eq_bind, ha, bind_some, hv]; rfl⟩
  · obtain ⟨a, ha⟩ := hscope i.lhs (by simp)
    simp only [Inst.isKnown, hop] at hknown
    obtain ⟨v, hv⟩ := isSome_iff_exists.mp (FloatOps.cast_isSome hknown i.isUnsigned a)
    exact ⟨_, by simp only [bind_eq_bind, ha, bind_some, hv]; rfl⟩

/-- A computation that is no concatenation is simple. -/
theorem isSimple_of_op (hconcat : i.op = .binary → i.isConcat = false) : i.isSimple = true := by
  simp only [List.mem_cons, List.not_mem_nil, or_false] at hop
  unfold Inst.isSimple
  rcases hop with hop | hop | hop | hop | hop <;> simp [hop]
  exact hconcat hop

/-- A scalar instruction with operands in scope writes its temporary. -/
theorem exec_isSome (hfault : i.divideMayFault = false) (hconcat : i.op = .binary → i.isConcat = false)
    (hknown : i.isKnown H.floats = true) (hdest : ∃ x, i.dest.kind = .temp ∧ i.dest.name = some x)
    (hscope : s.InScope H i) : ∃ t, s.exec H fn i = some t := by
  obtain ⟨x, hk, hn⟩ := hdest
  obtain ⟨v, hv⟩ := result_isSome hop hfault hconcat hknown (by simp [Operand.isSymbol, hk]) hscope
  rw [exec_simple (isSimple_of_op hop hconcat), hv, bind_some, storeDest_temp hk hn]
  exact ⟨_, rfl⟩

end

end State

end Mettle.Ir

import Mettle.Ir.CoalesceCompose

/-!
# The use counts of the coalescing pass

The pass counts the uses of temporaries once. The rewrites never add a use, so a temporary that was
counted once is read by one instruction at most, as long as the count sees every read.
-/

open List

namespace Mettle.Ir

variable {fn out : Function}

/-- The temporaries an instruction reads are counted. -/
def Inst.countsReads (i : Inst) : Bool :=
  i.sources.all fun o => o.kind ≠ .temp ∨ o.name.all fun t => t ∈ i.tempUses

/-- Every read of a temporary is counted. -/
def Function.countsReads (fn : Function) : Bool := fn.instructions.all Inst.countsReads

/-- No symbol has the name of a temporary. -/
def Function.Separate (fn : Function) : Prop :=
  ∀ j, ∀ o ∈ (fn.insn j).operands, o.kind = .temp → ∀ t, o.name = some t → fn.OnlyTemp t

/-- A function with the variables of another one keeps its names apart. -/
theorem Function.Separate.of_operands (h : fn.Separate) (hparams : out.parameterNames = fn.parameterNames)
    (hoperands : ∀ j, ∀ o ∈ (out.insn j).operands, o.kind = .temp ∨ o.kind = .symbol →
      ∃ k, o ∈ (fn.insn k).operands) : out.Separate := by
  intro j o ho hk t hn
  obtain ⟨k, hmem⟩ := hoperands j o ho (Or.inl hk)
  have htemp := h k o hmem hk t hn
  refine ⟨by rw [hparams]; exact htemp.parameter, fun j' o' ho' hk' => ?_⟩
  obtain ⟨k', hmem'⟩ := hoperands j' o' ho' (Or.inr hk')
  exact htemp.symbol k' o' hmem' hk'

theorem Inst.tempUses_makeNop (i : Inst) : i.makeNop.tempUses = [] := rfl

variable {i : Inst} {o : Operand}

theorem Inst.operands_makeNop (h : o ∈ i.makeNop.operands) : o.kind = .none := by
  simp only [operands, makeNop, mem_cons, not_mem_nil, or_false] at h
  rcases h with rfl | rfl | rfl <;> rfl

theorem Inst.sources_operands (h : o ∈ i.sources) : o ∈ i.operands := by
  unfold sources at h
  unfold operands
  split at h <;> simp_all <;> tauto

/-- A new destination adds no use. -/
theorem Inst.tempUses_withDest (h : i.op.isSingle = true ∨ i.op = .phi) (d : Operand) :
    (i.withDest d).tempUses = i.tempUses := by
  have hdest : i.op.readsDestination = false := by
    rcases h with hop | hop
    · revert hop
      cases i.op <;> simp [Opcode.isSingle, Opcode.readsDestination]
    · rw [hop]
      rfl
  unfold tempUses withDest
  simp only [hdest]
  rfl

theorem Inst.countsReads_cast (h : i.op = .cast) : i.countsReads = true := by
  unfold countsReads sources tempUses
  cases hname : i.lhs.name <;> by_cases hk : i.lhs.kind = .temp <;>
    simp [h, hk, hname, Opcode.readsSideOperands, Opcode.readsDestination]

/-- The outer cast of a composition counts no more than the two casts. -/
theorem Inst.tempUses_moved {a b : Inst} (ha : a.op = .cast) (hb : b.op = .cast) (type : Option String)
    (t : String) : (b.recast a.lhs type).tempUses.count t ≤
      b.tempUses.count t + a.tempUses.count t := by
  have hside : Opcode.readsSideOperands .cast = true := rfl
  have hdest : Opcode.readsDestination .cast = false := rfl
  simp only [tempUses, recast, ha, hb, hside, hdest, if_true, Bool.false_eq_true, if_false, nil_append,
    cons_append, filterMap_cons]
  split <;> split <;> split <;> split <;> simp_all [count_cons] <;> omega

/-! ## Counting -/

/-- What replacing one element does to a count over a list. -/
theorem count_flatMap_set {α : Type*} (f : α → List String) (l : List α) {k : ℕ} (hk : k < l.length) (a : α)
    (t : String) : ((l.set k a).flatMap f).count t + (f l[k]).count t =
      (l.flatMap f).count t + (f a).count t := by
  have hl : l = l.take k ++ l[k] :: l.drop (k + 1) := by
    rw [getElem_cons_drop, take_append_drop]
  have hset : l.set k a = l.take k ++ a :: l.drop (k + 1) := by
    rw [set_eq_take_append_cons_drop, if_pos hk]
  conv_rhs => rw [hl]
  rw [hset]
  simp only [flatMap_append, flatMap_cons, count_append]
  omega

namespace Function

/-- What replacing one instruction does to the uses of a temporary. -/
theorem tempUseCount_setInsn (fn : Function) {k : ℕ} (hk : k < fn.instructions.length) (i : Inst)
    (t : String) : (fn.setInsn k i).tempUseCount t + (fn.insn k).tempUses.count t =
      fn.tempUseCount t + i.tempUses.count t := by
  have := count_flatMap_set Inst.tempUses fn.instructions hk i t
  rwa [getElem_insn fn hk] at this

/-- An instruction has at most all the uses. -/
theorem tempUses_le (fn : Function) {k : ℕ} (hk : k < fn.instructions.length) (t : String) :
    (fn.insn k).tempUses.count t ≤ fn.tempUseCount t := by
  have := fn.tempUseCount_setInsn hk (fn.insn k).makeNop t
  rw [Inst.tempUses_makeNop, count_nil] at this
  omega

/-- Two instructions that use a temporary count twice. -/
theorem tempUses_add_le (fn : Function) {j k : ℕ} (hj : j < fn.instructions.length)
    (hk : k < fn.instructions.length) (hne : j ≠ k) (t : String) :
    (fn.insn j).tempUses.count t + (fn.insn k).tempUses.count t ≤ fn.tempUseCount t := by
  have hcount := fn.tempUseCount_setInsn hk (fn.insn k).makeNop t
  have hother := (fn.setInsn k (fn.insn k).makeNop).tempUses_le (by rw [length_setInsn]; exact hj) t
  rw [insn_setInsn fn hk, if_neg hne] at hother
  rw [Inst.tempUses_makeNop, count_nil] at hcount
  omega

/-- In such a function the reads of every instruction are counted. -/
theorem insn_countsReads (h : fn.countsReads = true) (j : ℕ) : (fn.insn j).countsReads = true := by
  unfold countsReads at h
  rw [all_eq_true] at h
  exact forall_insn (P := fun i => i.countsReads = true) rfl h j

/-- The names of temporaries and of symbols, instruction by instruction. -/
theorem separate_of_names (h : ∀ i ∈ fn.instructions, ∀ o ∈ i.operands, o.kind = .temp → ∀ t ∈ o.name,
    t ∉ fn.parameterNames ∧ ∀ i' ∈ fn.instructions, ∀ o' ∈ i'.operands, o'.kind = .symbol →
      o'.name ≠ some t) : fn.Separate := by
  have hinsn : ∀ j, ∀ o ∈ (fn.insn j).operands, o.kind ≠ .none → fn.insn j ∈ fn.instructions := by
    intro j o ho hk
    by_cases hj : j < fn.instructions.length
    · rw [← getElem_insn fn hj]
      exact getElem_mem hj
    · unfold insn at ho
      rw [getD_eq_default _ _ (by omega)] at ho
      simp only [Inst.operands, mem_cons, not_mem_nil, or_false, or_self] at ho
      exact absurd (congrArg Operand.kind ho) hk
  intro j o ho hk t ht
  obtain ⟨hparam, hsymbol⟩ := h _ (hinsn j o ho (by rw [hk]; decide)) o ho hk t ht
  exact ⟨hparam, fun j' o' ho' hk' => hsymbol _ (hinsn j' o' ho' (by rw [hk']; decide)) o' ho' hk'⟩

end Function

/-- What the rewrites keep. -/
structure CoalesceInv (uses : String → ℕ) (length : ℕ) (fn : Function) : Prop where
  length : fn.instructions.length = length
  counts : ∀ j, (fn.insn j).countsReads = true
  le : ∀ t, fn.tempUseCount t ≤ uses t
  separate : fn.Separate

namespace CoalesceInv

variable {uses : String → ℕ} {n : ℕ} (h : CoalesceInv uses n fn)

include h

variable {j i p : ℕ} {t : String}

/-- A name of a temporary is no symbol. -/
theorem onlyTemp {o : Operand} (ho : o ∈ (fn.insn j).operands) (hk : o.kind = .temp) (hn : o.name = some t) :
    fn.OnlyTemp t := h.separate j o ho hk t hn

/-- So it is for the first operand. -/
theorem onlyTemp_lhs (hk : (fn.insn j).lhs.kind = .temp) (hn : (fn.insn j).lhs.name = some t) : fn.OnlyTemp t :=
  h.onlyTemp (j := j) (by simp [Inst.operands]) hk hn

/-- A temporary with one use is read by the instruction that uses it alone. -/
theorem only (hi : i < fn.instructions.length) (huses : uses t = 1) (hmem : t ∈ (fn.insn i).tempUses)
    (htemp : fn.OnlyTemp t) (hj : j ≠ i) : (fn.insn j).readsName t = false := by
  by_contra hread
  rw [Bool.not_eq_false] at hread
  unfold Inst.readsName at hread
  rw [any_eq_true] at hread
  obtain ⟨o, ho, hvar⟩ := hread
  have hlen : j < fn.instructions.length := by
    by_contra hlen
    unfold Function.insn at ho
    rw [getD_eq_default _ _ (by omega)] at ho
    cases ho
  obtain hk | hk : o.kind = .temp ∨ o.kind = .symbol := by
    by_contra hk
    unfold Operand.var at hvar
    rw [if_neg hk] at hvar
    cases hvar
  · -- both uses are counted
    have hname : o.name = some t := by simpa [Operand.var, hk] using hvar
    have hcounted : t ∈ (fn.insn j).tempUses := by
      have := h.counts j
      unfold Inst.countsReads at this
      rw [all_eq_true] at this
      simpa [hk, hname] using this o ho
    have htwo := fn.tempUses_add_le hlen hi hj t
    have hle := h.le t
    have h₁ := count_pos_iff.mpr hcounted
    have h₂ := count_pos_iff.mpr hmem
    omega
  · have hname : o.name = some t := by simpa [Operand.var, hk] using hvar
    exact htemp.symbol j o (Inst.sources_operands ho) hk hname

/-- Forwarding adds no use. -/
theorem forward (hp : p < i) (hi : i < fn.instructions.length)
    (hsingle : (fn.insn p).op.isSingle = true ∨ (fn.insn p).op = .phi) :
    CoalesceInv uses n (fn.forward p i) where
  length := by
    unfold Function.forward
    rw [Function.length_setInsn, Function.length_setInsn, h.length]
  counts := by
    intro j
    rw [Function.forward_insn hp hi]
    split_ifs
    · rfl
    · have := h.counts p
      unfold Inst.countsReads at this ⊢
      rwa [Inst.sources_withDest hsingle, Inst.tempUses_withDest hsingle]
    · exact h.counts j
  -- the producer takes over the destination, the consumer becomes a hole: uses only get fewer
  le := by
    intro t
    have hnop := (fn.setInsn p ((fn.insn p).withDest (fn.insn i).dest)).tempUseCount_setInsn
      (by rw [Function.length_setInsn]; exact hi) (fn.insn i).makeNop t
    have hdest := fn.tempUseCount_setInsn (show p < fn.instructions.length by omega)
      ((fn.insn p).withDest (fn.insn i).dest) t
    rw [Inst.tempUses_withDest hsingle] at hdest
    rw [Inst.tempUses_makeNop, count_nil] at hnop
    have hle := h.le t
    change (Function.setInsn (fn.setInsn p ((fn.insn p).withDest (fn.insn i).dest)) i
      (fn.insn i).makeNop).tempUseCount t ≤ uses t
    omega
  separate := by
    refine h.separate.of_operands rfl fun j o ho hk => ?_
    rw [Function.forward_insn hp hi] at ho
    split_ifs at ho
    · rw [Inst.operands_makeNop ho] at hk
      rcases hk with hk | hk <;> cases hk
    · simp only [Inst.operands, Inst.withDest, mem_cons] at ho
      rcases ho with rfl | ho
      · exact ⟨i, mem_cons_self⟩
      · exact ⟨p, mem_cons.mpr (Or.inr (by simpa using ho))⟩
    · exact ⟨j, ho⟩

/-- Composing moves a use from the inner cast to the outer one. -/
theorem compose {type : Option String} (hp : p < i) (hi : i < fn.instructions.length)
    (hinner : (fn.insn p).op = .cast) (houter : (fn.insn i).op = .cast) :
    CoalesceInv uses n (fn.compose p i type) where
  length := by
    unfold Function.compose
    rw [Function.length_setInsn, Function.length_setInsn, h.length]
  counts := by
    intro j
    rw [Function.compose_insn hp hi]
    split_ifs
    · rfl
    · exact Inst.countsReads_cast houter
    · exact h.counts j
  le := by
    intro t
    have houterCount := fn.tempUseCount_setInsn hi ((fn.insn i).recast (fn.insn p).lhs type) t
    have hnop := (fn.setInsn i ((fn.insn i).recast (fn.insn p).lhs type)).tempUseCount_setInsn
      (show p < _ by rw [Function.length_setInsn]; omega) (fn.insn p).makeNop t
    rw [Inst.tempUses_makeNop, count_nil, Function.insn_setInsn fn hi, if_neg (by omega)] at hnop
    have hmoved := Inst.tempUses_moved hinner houter type t
    have hle := h.le t
    change (Function.setInsn (fn.setInsn i ((fn.insn i).recast (fn.insn p).lhs type)) p
      (fn.insn p).makeNop).tempUseCount t ≤ uses t
    omega
  separate := by
    refine h.separate.of_operands rfl fun j o ho hk => ?_
    rw [Function.compose_insn hp hi] at ho
    split_ifs at ho
    · rw [Inst.operands_makeNop ho] at hk
      rcases hk with hk | hk <;> cases hk
    · simp only [Inst.operands, Inst.recast, mem_cons] at ho
      rcases ho with rfl | rfl | ho
      · exact ⟨i, by simp [Inst.operands]⟩
      · exact ⟨p, by simp [Inst.operands]⟩
      · exact ⟨i, by simp only [Inst.operands, mem_cons]; tauto⟩
    · exact ⟨j, ho⟩

end CoalesceInv

end Mettle.Ir

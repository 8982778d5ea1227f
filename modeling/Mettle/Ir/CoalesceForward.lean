import Mettle.Ir.Coalesce
import Mettle.Ir.Skeleton

/-!
# Forwarding a producer into its consumer

The producer writes the destination of the instruction that consumes its temporary, which becomes a
`NOP`. Between the two the new run is ahead: its state is what the consumer makes of the old one.
-/

open List Option Function

namespace Mettle.Ir

variable {W : Type} {H : Host W} {fn out : Function}

/-- The runs of the machine are those of a step function. -/
theorem stepN_eq_runN (n : ℕ) (c : Config W) : stepN H fn n c = Lib.runN (step H fn) n c := by
  induction n generalizing c with
  | zero => rfl
  | succ n ih =>
    rw [stepN, Lib.runN]
    congr 1
    funext d
    exact ih d

/-! ## What a rewrite keeps -/

/-- The values an instruction reads; of a cast, the value it computes. -/
def State.observed (H : Host W) (s : State W) (i : Inst) : List (Option Value) :=
  if i.op = .cast then [s.result H i] else i.sources.map (s.fetch H)

/-- The run of the rewritten function: wherever the old run stands before an instruction that remains,
the new one stands there too, with the same host, and the instruction reads the same values; and it
returns what the old run returns. -/
def Function.Preserves (H : Host W) (fn out : Function) (s : State W) : Prop :=
  ∀ n, (∀ pc t, stepN H fn n (.at 0 s) = some (.at pc t) → (out.insn pc).op ≠ .nop →
      ∃ t', stepN H out n (.at 0 s) = some (.at pc t') ∧ t'.world = t.world ∧
        t'.observed H (out.insn pc) = t.observed H (fn.insn pc)) ∧
    ∀ v t, stepN H fn n (.at 0 s) = some (.returned v t) →
      ∃ t', stepN H out n (.at 0 s) = some (.returned v t') ∧ t'.world = t.world

/-- What an instruction shows does not depend on names it does not read. -/
theorem State.observed_agree {D : String → Prop} {s s' : State W} {i : Inst} (h : s.AgreeOff D s')
    (hreads : ∀ x, D x → i.readsName x = false) : s'.observed H i = s.observed H i := by
  unfold observed
  split
  · rw [State.result_agree h hreads]
  · refine map_congr_left fun o ho => ?_
    exact State.fetch_agree h fun x hx hd => Inst.not_reads (hreads x hd) ho hx

namespace Function.Preserves

variable {s : State W}

theorem refl (H : Host W) (fn : Function) (s : State W) : fn.Preserves H fn s :=
  fun _ => ⟨fun _ t hrun _ => ⟨t, hrun, rfl, rfl⟩, fun _ t hrun => ⟨t, hrun, rfl⟩⟩

theorem trans {mid : Function} (h : fn.Preserves H mid s) (h' : mid.Preserves H out s)
    (hnop : ∀ pc, (out.insn pc).op ≠ .nop → (mid.insn pc).op ≠ .nop) : fn.Preserves H out s := by
  intro n
  refine ⟨fun pc t hrun hpc => ?_, fun v t hrun => ?_⟩
  · obtain ⟨t₁, hrun₁, hworld₁, hobs₁⟩ := (h n).1 pc t hrun (hnop pc hpc)
    obtain ⟨t₂, hrun₂, hworld₂, hobs₂⟩ := (h' n).1 pc t₁ hrun₁ hpc
    exact ⟨t₂, hrun₂, hworld₂.trans hworld₁, hobs₂.trans hobs₁⟩
  · obtain ⟨t₁, hrun₁, hworld₁⟩ := (h n).2 v t hrun
    obtain ⟨t₂, hrun₂, hworld₂⟩ := (h' n).2 v t₁ hrun₁
    exact ⟨t₂, hrun₂, hworld₂.trans hworld₁⟩

end Function.Preserves

/-! ## Instructions with one result -/

/-- An instruction with another destination. -/
def Inst.withDest (i : Inst) (d : Operand) : Inst := { i with dest := d }

/-- The opcodes of instructions that write one value and do not read their destination. -/
def Opcode.isSingle (op : Opcode) : Bool :=
  op ∈ ([.assign, .addressOf, .load, .binary, .unary, .cast, .select, .call, .callIndirect, .new] :
    List Opcode)

/-- Such an instruction, or a phi, reads the same with another destination. -/
theorem Inst.sources_withDest {i : Inst} (h : i.op.isSingle = true ∨ i.op = .phi) (d : Operand) :
    (i.withDest d).sources = i.sources := by
  unfold sources withDest
  rcases h with hop | hop
  · revert hop
    cases i.op <;> simp [Opcode.isSingle]
  · simp [hop]

namespace State

variable {s s' t : State W} {i : Inst}

/-- An instruction with one result computes one value. -/
theorem effect_single (hop : i.op.isSingle = true) {vs : List Value} {w : W}
    (h : s.effect H i = some (vs, w)) : ∃ v, vs = [v] := by
  unfold effect at h
  cases hi : i.op <;> rw [hi] at hop h
  case assign | addressOf | load | binary | unary | cast | select | call | callIndirect | new =>
    simp only [bind_eq_bind, map_eq_some_iff, bind_eq_some_iff, some.injEq, Prod.mk.injEq] at h
    grind
  all_goals cases hop

/-- Its execution stores this value at its destination. -/
theorem exec_single (hop : i.op.isSingle = true) (s : State W) : s.exec H fn i = (s.effect H i).bind fun r =>
      (r.1.head?).bind fun v => { s with world := r.2 }.storeDest H i.dest v := by
  have hdecl : i.op ≠ .declareLocal := by
    intro hi
    rw [hi] at hop
    cases hop
  have hresults : i.results = [i.dest] := by
    unfold Inst.results
    cases hi : i.op <;> first | rfl | (rw [hi] at hop; cases hop)
  unfold exec
  rw [if_neg hdecl, hresults]
  cases heffect : s.effect H i with
  | none => rfl
  | some r =>
    obtain ⟨v, hv⟩ := effect_single hop heffect
    obtain ⟨vs, w⟩ := r
    subst hv
    simp only [bind_some, zip_cons_cons, zip_nil_left, head?_cons, storeAll]
    cases ({ s with world := w } : State W).storeDest H i.dest v <;> rfl

/-- The destination matters to the effect only where a literal is assigned to a `cstring`. -/
theorem effect_dest (hop : i.op.isSingle = true) (d : Operand)
    (hliteral : i.op = .assign → i.lhs.kind = .string → i.dest.isSymbol = false ∧
      (d.isSymbol = true → ((d.name.bind s.env).any fun var => var.isCstring) = false)) :
    s.effect H (i.withDest d) = s.effect H i := by
  obtain ⟨op, dest, lhs, rhs, text, arguments, isFloat, floatBits, isUnsigned, valueType, aliasClass⟩ := i
  unfold Inst.withDest
  cases op
  case assign =>
    simp only [effect, assigned]
    by_cases hkind : lhs.kind = .string
    · obtain ⟨hsym, hcstring⟩ := hliteral rfl hkind
      rw [if_neg, if_neg]
      · simp [hsym]
      · rintro ⟨-, hd, hc⟩
        rw [hcstring hd] at hc
        cases hc
    · rw [if_neg (fun h => hkind h.1), if_neg (fun h => hkind h.1)]
  case addressOf | load | binary | unary | cast | select | call | callIndirect | new => rfl
  all_goals cases hop

/-- A temporary of no width reads back what was written to it. -/
theorem fetch_storeDest_temp {o : Operand} {x : String} {v : Value} (hk : o.kind = .temp)
    (hn : o.name = some x) (hshape : Var.SameShape none (s.env x)) (h : s.storeDest H o v = some t) :
    t.fetch H o = some v := by
  rw [storeDest_temp hk hn] at h
  cases h
  simp only [fetch, hk, hn, update_self, some.injEq]
  rw [hshape.write_eq]
  exact Var.write_wide rfl v

/-- A variable is no `cstring`. -/
def NotCstring (s : State W) (x : String) : Prop := ((s.env x).any fun var => var.isCstring) = false

/-- A variable stays no string unless it is declared as one. -/
theorem NotCstring.exec {x : String} (hs : s.NotCstring x) (hdeclare : i.op = .declareLocal → i.dest.name = some x →
      i.text ≠ some "cstring" ∧ i.text ≠ some "rawptr") (h : s.exec H fn i = some t) :
    t.NotCstring x := by
  have hany : ∀ o : Option Var, (o.any fun var => var.isCstring) = (o.getD { value := .poison }).isCstring := by
    intro o
    cases o <;> rfl
  unfold NotCstring at hs ⊢
  by_cases hdecl : i.op = .declareLocal ∧ i.dest.name = some x
  · obtain ⟨hcstring, hrawptr⟩ := hdeclare hdecl.1 hdecl.2
    unfold State.exec at h
    rw [if_pos hdecl.1] at h
    unfold declareLocal at h
    split at h
    · cases h
    rw [hdecl.2, bind_some] at h
    split at h
    · rename_i var hvar
      cases h
      simp only [Host.declaredVar] at hvar
      split at hvar
      · cases hvar
      · rw [bind_eq_some_iff] at hvar
        obtain ⟨shape, -, hvar⟩ := hvar
        split at hvar
        · cases hvar
        · cases hvar
          simp [hcstring, hrawptr]
    · obtain ⟨w, -, rfl⟩ := map_eq_some_iff.mp h
      simp only [update_self, any_none]
  · have hshape := exec_shape (x := x) (fun hop hname => hdecl ⟨hop, hname⟩) h
    rw [hany] at hs ⊢
    rw [← hshape.2.2, hs]

end State

/-! ## The rewritten function -/

/-- The instructions after one was replaced. -/
theorem Function.insn_setInsn (fn : Function) {k : ℕ} (hk : k < fn.instructions.length) (j : ℕ)
    (i : Inst) : (fn.setInsn k i).insn j = if j = k then i else fn.insn j := by
  unfold setInsn insn
  simp only [getD_eq_getElem?_getD, List.getElem?_set]
  by_cases hjk : k = j
  · rw [if_pos hjk, if_pos hjk.symm, if_pos (hjk ▸ hk), getD_some]
  · rw [if_neg hjk, if_neg (Ne.symm hjk)]

/-- Replacing keeps how many there are. -/
theorem Function.length_setInsn (fn : Function) (k : ℕ) (i : Inst) :
    (fn.setInsn k i).instructions.length = fn.instructions.length := length_set

/-- The replacement of an instruction that is no label and takes no address. -/
theorem SameSkeleton.setInsn {fn : Function} {k : ℕ} (hk : k < fn.instructions.length) {i : Inst}
    (hop : (fn.insn k).op ≠ .label ∧ (fn.insn k).op ≠ .addressOf) (hop' : i.op ≠ .label ∧ i.op ≠ .addressOf) :
    SameSkeleton fn (fn.setInsn k i) where
  length := fn.length_setInsn k i
  label := by
    intro j name
    rw [Function.insn_setInsn fn hk]
    split
    · rename_i hjk
      rw [hjk]
      simp [hop.1, hop'.1]
    · rfl
  address := by
    intro j x
    rw [Function.insn_setInsn fn hk]
    split
    · rename_i hjk
      rw [hjk]
      simp [hop.2, hop'.2]
    · rfl
  returns := rfl

/-- A name that only temporaries have. -/
structure Function.OnlyTemp (fn : Function) (t : String) : Prop where
  parameter : t ∉ fn.parameterNames
  symbol : ∀ j, ∀ o ∈ (fn.insn j).operands, o.kind = .symbol → o.name ≠ some t

/-- What an instruction writes is among its operands. -/
theorem Inst.written_operands {i : Inst} {e : Operand} (he : e ∈ i.written) (hk : e.kind ≠ .none) :
    e ∈ i.operands := by
  have harg : i.arguments.getD 0 {} ∈ i.operands ∨ (i.arguments.getD 0 {}).kind = .none := by
    by_cases hlen : 0 < i.arguments.length
    · rw [getD_eq_getElem _ _ hlen]
      exact Or.inl (by simp [operands])
    · rw [getD_eq_default _ _ (by omega)]
      exact Or.inr rfl
  unfold written at he
  split at he
  · simp_all [operands]
  · unfold results at he
    split at he <;> simp only [mem_cons, not_mem_nil, or_false] at he
    · rcases he with rfl | rfl | rfl <;> simp [operands]
    · rcases he with rfl | rfl
      · simp [operands]
      · exact harg.resolve_right hk
    · rcases he with rfl | rfl <;> simp [operands]
    · subst he
      simp [operands]

/-- A name that is only a temporary is never written as a symbol. -/
theorem Function.OnlyTemp.written {t : String} (h : fn.OnlyTemp t) (j : ℕ) :
    ∀ e ∈ (fn.insn j).written, ∀ x, e.kind = .symbol → e.name = some x → ¬ x = t := by
  rintro e he x hk hn rfl
  exact h.symbol j e (Inst.written_operands he (by rw [hk]; decide)) hk hn

/-- At the entry such a name has no variable. -/
theorem Function.OnlyTemp.shape_entry {t : String} (h : fn.OnlyTemp t) {s : State W} (hs : fn.Entry s) :
    Var.SameShape none (s.env t) := by
  cases hvar : s.env t with
  | none => exact Var.SameShape.refl none
  | some var =>
    obtain ⟨k, hk, -⟩ := hs t var hvar
    exact absurd (mem_of_getElem? hk) h.parameter

/-- Nor is it declared, so its shape stays. -/
theorem Function.OnlyTemp.declare {t : String} (h : fn.OnlyTemp t) (j : ℕ) {s s' : State W}
    (hexec : s.exec H fn (fn.insn j) = some s') (hs : Var.SameShape none (s.env t)) :
    Var.SameShape none (s'.env t) := by
  refine hs.trans (State.exec_shape (fun hop hname => ?_) hexec)
  -- a declaration of another kind than a symbol does not execute
  have hkind : (fn.insn j).dest.kind = .symbol := by
    by_contra hkind
    unfold State.exec State.declareLocal at hexec
    rw [if_pos hop, if_pos hkind] at hexec
    cases hexec
  exact h.symbol j _ (by simp [Inst.operands]) hkind hname

section Forward

variable {p i : ℕ} {t : String}

/-- The instructions after the forwarding: the producer writes to the destination of the consumer, which is gone. -/
theorem Function.forward_insn (hp : p < i) (hi : i < fn.instructions.length) (j : ℕ) : (fn.forward p i).insn j =
      if j = i then (fn.insn i).makeNop
      else if j = p then (fn.insn p).withDest (fn.insn i).dest else fn.insn j := by
  unfold forward
  rw [insn_setInsn _ (by rw [length_setInsn]; exact hi), insn_setInsn _ (by omega)]
  rfl

/-- Between the two places stand `NOP`s, or the second writes a temporary and the instructions between
neither notice that it is written early nor write the temporary that is read there. -/
def Function.WritesEarly (fn : Function) (p i : ℕ) (t : String) : Prop :=
  ∀ k, p < k → k < i → (fn.insn k).op = .nop ∨
    ∃ x, (fn.insn i).dest.kind = .temp ∧ (fn.insn i).dest.name = some x ∧
      (fn.insn k).op.isControl = false ∧ (fn.insn k).op ≠ .label ∧ (fn.insn k).readsName x = false ∧
      (fn.insn k).writesName x = false ∧ (fn.insn k).writesName t = false

/-- A literal is not forwarded into a variable that would take its characters. -/
def Function.LiteralKept (fn : Function) (p i : ℕ) (s : State W) : Prop :=
  (fn.insn p).op = .assign → (fn.insn p).lhs.kind = .string → ∀ x,
    (fn.insn i).dest.kind = .symbol → (fn.insn i).dest.name = some x → s.NotCstring x ∧
      ∀ j, (fn.insn j).op = .declareLocal → (fn.insn j).dest.name = some x →
        (fn.insn j).text ≠ some "cstring" ∧ (fn.insn j).text ≠ some "rawptr"

/-- What a forwarding needs: the temporary is written by the producer alone as its one result, it is
read by the consumer alone, the consumer passes the value on, and its destination can be written early. -/
structure Forwardable (H : Host W) (fn : Function) (p i : ℕ) (t : String) : Prop where
  lt : p < i
  bound : i < fn.instructions.length
  single : (fn.insn p).op.isSingle = true ∨ (fn.insn p).op = .phi
  dest_kind : (fn.insn p).dest.kind = .temp
  dest_name : (fn.insn p).dest.name = some t
  consumer : (fn.insn i).op = .assign ∨ (fn.insn i).op = .cast
  lhs_kind : (fn.insn i).lhs.kind = .temp
  lhs_name : (fn.insn i).lhs.name = some t
  value : ∀ (s : State W) (v : Value) (w : W), s.effect H (fn.insn p) = some ([v], w) →
    ∀ s' : State W, s'.fetch H (fn.insn i).lhs = some v → s'.result H (fn.insn i) = some v
  only : ∀ j, j ≠ i → (fn.insn j).readsName t = false
  temp : fn.OnlyTemp t
  between : fn.WritesEarly p i t

/-- What holds of the states of the run before the rewrite. -/
structure ForwardInv (fn : Function) (p i : ℕ) (t : String) (s : State W) : Prop where
  shape : Var.SameShape none (s.env t)
  literal : fn.LiteralKept p i s

/-- The run after the rewrite beside the run before it. Inside, the consumer passes on a value that the
new run has written already. -/
inductive Forwarded (H : Host W) (fn : Function) (p i : ℕ) (t : String) : Config W → Config W → Prop
  | outside {pc : ℕ} {s s' : State W} (hpc : ¬ (p < pc ∧ pc ≤ i)) (hinv : ForwardInv fn p i t s)
      (hagree : s.AgreeOff (· = t) s') : Forwarded H fn p i t (.at pc s) (.at pc s')
  | inside {pc : ℕ} {s s₂ s' : State W} {v : Value} (hpc : p < pc ∧ pc ≤ i) (hinv : ForwardInv fn p i t s)
      (hfetch : s.fetch H (fn.insn i).lhs = some v)
      (hpass : ∀ s : State W, s.fetch H (fn.insn i).lhs = some v → s.result H (fn.insn i) = some v)
      (hstore : s.storeDest H (fn.insn i).dest v = some s₂) (hagree : s₂.AgreeOff (· = t) s') :
      Forwarded H fn p i t (.at pc s) (.at pc s')
  | returned {v : Value} {s s' : State W} (hworld : s'.world = s.world) :
      Forwarded H fn p i t (.returned v s) (.returned v s')

/-- Between the two, a consumer that cannot write its destination stops the run before the rewrite. -/
inductive ForwardDoomed (H : Host W) (fn : Function) (p i : ℕ) : Config W → Prop
  | mk {pc : ℕ} {s : State W} (hpc : p < pc ∧ pc ≤ i) (hnop : ∀ k, p < k → k < i → (fn.insn k).op = .nop)
      (hexec : s.exec H fn (fn.insn i) = none) : ForwardDoomed H fn p i (.at pc s)

namespace Forwardable

variable (h : Forwardable H fn p i t)

include h

variable {j k pc : ℕ} {d : Config W} {v : Value}

/-- Between the producer and the consumer every instruction keeps the invariant. -/
theorem inv_exec {s s' : State W} (hs : ForwardInv fn p i t s) (hexec : s.exec H fn (fn.insn j) = some s') :
    ForwardInv fn p i t s' where
  shape := h.temp.declare j hexec hs.shape
  literal := fun hop hkind x hd hn => by
    obtain ⟨hnot, hdeclare⟩ := hs.literal hop hkind x hd hn
    exact ⟨hnot.exec (hdeclare j) hexec, hdeclare⟩

theorem consumer_simple : (fn.insn i).isSimple = true := by
  rcases h.consumer with hop | hop <;> simp [Inst.isSimple, hop]

theorem consumer_control : (fn.insn i).op.isControl = false := by
  rcases h.consumer with hop | hop <;> rw [hop] <;> rfl

theorem not_label (hp : p < k) (hi : k ≤ i) : (fn.insn k).op ≠ .label := by
  rcases Nat.lt_or_eq_of_le hi with hlt | rfl
  · rcases h.between k hp hlt with hnop | ⟨x, -, -, -, hlabel, -⟩
    · rw [hnop]
      decide
    · exact hlabel
  · rcases h.consumer with hop | hop <;> rw [hop] <;> decide

theorem producer_ne : (fn.insn p).op ≠ .label ∧ (fn.insn p).op.isControl = false := by
  rcases h.single with hop | hop
  · revert hop
    cases (fn.insn p).op <;> simp [Opcode.isSingle, Opcode.isControl]
  · rw [hop]
    decide

theorem insn_of_ne (hi : j ≠ i) (hp : j ≠ p) : (fn.forward p i).insn j = fn.insn j := by
  rw [Function.forward_insn h.lt h.bound, if_neg hi, if_neg hp]

theorem insn_producer : (fn.forward p i).insn p = (fn.insn p).withDest (fn.insn i).dest := by
  rw [Function.forward_insn h.lt h.bound, if_neg (by have := h.lt; omega), if_pos rfl]

theorem insn_consumer : (fn.forward p i).insn i = (fn.insn i).makeNop := by
  rw [Function.forward_insn h.lt h.bound, if_pos rfl]

/-- Labels and declarations stay where they were. -/
theorem skeleton : SameSkeleton fn (fn.forward p i) where
  length := by
    unfold Function.forward
    rw [Function.length_setInsn, Function.length_setInsn]
  label := by
    intro j name
    by_cases hi : j = i
    · subst hi
      rw [h.insn_consumer]
      rcases h.consumer with hop | hop <;> simp [Inst.makeNop, hop]
    · by_cases hp : j = p
      · subst hp
        rw [h.insn_producer]
        rfl
      · rw [h.insn_of_ne hi hp]
  address := by
    intro j x
    by_cases hi : j = i
    · subst hi
      rw [h.insn_consumer]
      rcases h.consumer with hop | hop <;> simp [Inst.makeNop, hop]
    · by_cases hp : j = p
      · subst hp
        rw [h.insn_producer]
        rfl
      · rw [h.insn_of_ne hi hp]
  returns := rfl

/-- Before the producer, after the consumer, and at other places of the function. -/
theorem step_outside (hpc : ¬ (p < pc ∧ pc ≤ i)) (hne : pc ≠ p) {s s' : State W} (hinv : ForwardInv fn p i t s)
    (hagree : s.AgreeOff (· = t) s') (hstep : step H fn (.at pc s) = some d) :
    ∃ d', step H (fn.forward p i) (.at pc s') = some d' ∧ Forwarded H fn p i t d d' := by
  have hlt := h.lt
  have hi : pc ≠ i := by omega
  obtain ⟨d', hstep', hagree'⟩ := step_agree h.skeleton (h.insn_of_ne hi hne) hagree
    (fun x hx => hx ▸ h.only pc hi) (h.temp.written pc) hstep
  refine ⟨d', hstep', ?_⟩
  cases hagree' with
  | returned hret => exact .returned hret.world
  | @«at» pc' s₁ s₁' hat =>
    obtain ⟨-, ⟨rfl, hfind, -⟩ | ⟨rfl, rfl, -⟩ | ⟨hexec, rfl, -⟩⟩ := step_cases hstep
    · -- a jump does not lead between the two
      refine .outside (fun hin => ?_) hinv hat
      exact h.not_label hin.1 hin.2 (findLabel_op hfind).2.1
    · exact .outside (by omega) hinv hat
    · exact .outside (by omega) (h.inv_exec hinv hexec) hat

/-- The producer writes the destination of the consumer. -/
theorem step_producer {s s' : State W} (hinv : ForwardInv fn p i t s) (hagree : s.AgreeOff (· = t) s')
    (hstep : step H fn (.at p s) = some d) :
    (∃ d', step H (fn.forward p i) (.at p s') = some d' ∧ Forwarded H fn p i t d d') ∨
      ForwardDoomed H fn p i d := by
  have hlt := h.lt
  have hbound := h.bound
  rw [step_exec (by omega) h.producer_ne.2, map_eq_some_iff] at hstep
  obtain ⟨s₁, hexec, rfl⟩ := hstep
  have hinv₁ := h.inv_exec hinv hexec
  have hsingle : (fn.insn p).op.isSingle = true := by
    refine h.single.resolve_right fun hphi => ?_
    simp [State.exec, State.effect, hphi] at hexec
  rw [State.exec_single hsingle, bind_eq_some_iff] at hexec
  obtain ⟨⟨vs, w⟩, heffect, hstore⟩ := hexec
  obtain ⟨v, rfl⟩ := State.effect_single hsingle heffect
  have hfetch : s₁.fetch H (fn.insn i).lhs = some v := by
    rw [← State.fetch_storeDest_temp (s := { s with world := w }) h.dest_kind h.dest_name hinv.shape hstore]
    simp only [State.fetch, h.lhs_kind, h.lhs_name, h.dest_kind, h.dest_name]
  have hpass := h.value s v w heffect
  have hvar : ∀ x, (fn.insn p).dest.var = some x → x = t := by
    intro x hx
    simpa [Operand.var, h.dest_kind, h.dest_name] using hx.symm
  have hagree₁ : s₁.AgreeOff (· = t) { s' with world := w } :=
    ((State.agreeOff_storeDest h.dest_kind hstore).mono hvar).symm.trans ⟨rfl, hagree.env, hagree.shape⟩
  -- the effect of the producer is the same in the new run
  have heffect' : s'.effect H ((fn.insn p).withDest (fn.insn i).dest) = some ([v], w) := by
    rw [← heffect, ← State.effect_agree hagree (fun x hx => hx ▸ h.only p (by omega))]
    refine State.effect_dest hsingle _ fun hop hkind => ⟨?_, fun hsym => ?_⟩
    · simp [Operand.isSymbol, h.dest_kind]
    · have hsymbol : (fn.insn i).dest.kind = .symbol := (by simpa [Operand.isSymbol] using hsym : _ ∧ _).1
      cases hname : (fn.insn i).dest.name with
      | none => rfl
      | some x =>
        have hx : x ≠ t := fun hx =>
          h.temp.symbol i _ (by simp [Inst.operands]) hsymbol (hx ▸ hname)
        rw [bind_some, hagree.env x hx]
        exact (hinv.literal hop hkind x hsymbol hname).1
  cases hconsumer : s₁.storeDest H (fn.insn i).dest v with
  | none =>
    -- only a symbol of the host refuses a write
    refine Or.inr (.mk (by omega) (fun k hpk hki => ?_) ?_)
    · refine (h.between k hpk hki).resolve_right ?_
      rintro ⟨x, hk, hn, -⟩
      rw [State.storeDest_temp hk hn] at hconsumer
      cases hconsumer
    · rw [State.exec_simple h.consumer_simple, hpass s₁ hfetch]
      exact hconsumer
  | some s₂ =>
    obtain ⟨s₂', hstore', hagree₂⟩ := State.storeDest_agree hagree₁ v (fun x hk hn hx =>
      h.temp.symbol i _ (by simp [Inst.operands]) hk (hx ▸ hn)) hconsumer
    refine Or.inl ⟨.at (p + 1) s₂', ?_, .inside (by omega) hinv₁ hfetch hpass hconsumer
      (hagree₂.mono fun x hx => hx.1)⟩
    rw [step_exec (by rw [h.skeleton.length]; omega) (by rw [h.insn_producer]; exact h.producer_ne.2),
      h.insn_producer, State.exec_single (i := (fn.insn p).withDest (fn.insn i).dest) hsingle, heffect',
      bind_some, head?_cons, bind_some]
    exact congrArg (Option.map (Config.at (p + 1))) hstore'

/-- An instruction between the two commutes with the early write. -/
theorem exec_inside {x : String} (hk : (fn.insn i).dest.kind = .temp) (hn : (fn.insn i).dest.name = some x)
    (hreads : (fn.insn k).readsName x = false) (hwrites : (fn.insn k).writesName x = false) (hki : k ≠ i)
    {s s₁ s₂ s' : State W} (hexec : s.exec H fn (fn.insn k) = some s₁)
    (hstore : s.storeDest H (fn.insn i).dest v = some s₂) (hagree : s₂.AgreeOff (· = t) s') :
    ∃ s₃ s₁', s₁.storeDest H (fn.insn i).dest v = some s₃ ∧ s'.exec H fn (fn.insn k) = some s₁' ∧
      s₃.AgreeOff (· = t) s₁' := by
  have hsymbol : ∀ e ∈ (fn.insn k).written, ∀ y, e.kind = .symbol → e.name = some y → y ≠ x := by
    rintro e he y hkind hname rfl
    unfold Inst.writesName at hwrites
    rw [List.any_eq_false] at hwrites
    exact hwrites e he (by simp [Operand.var, hkind, hname])
  have hvar : ∀ y, (fn.insn i).dest.var = some y → y = x := by
    intro y hy
    simpa [Operand.var, hk, hn] using hy.symm
  obtain ⟨s₃, hexec₃, hagree₃⟩ := State.exec_agree ((State.agreeOff_storeDest hk hstore).mono hvar)
    (fun y hy => hy ▸ hreads) hsymbol hexec
  obtain ⟨s₁', hexec', hagree'⟩ := State.exec_agree hagree (fun y hy => hy ▸ h.only k hki) (h.temp.written k) hexec₃
  refine ⟨s₃, s₁', ?_, hexec', hagree'⟩
  -- the variable holds what it held before the instruction
  have henv₁ := State.exec_env hexec hwrites
  have henv₃ := State.exec_env hexec₃ hwrites
  rw [State.storeDest_temp hk hn] at hstore ⊢
  cases hstore
  rw [henv₁]
  refine congrArg some (Eq.symm ?_)
  refine State.AgreeOff.eq ⟨hagree₃.world, fun y _ => ?_, fun _ hy => hy.elim⟩
  by_cases hy : y = x
  · subst hy
    simp only [henv₃, update_self]
  · simp only [hagree₃.env y hy, update_of_ne hy]

/-- Between the two, both functions make the same step off the temporary, until the consumer stores the value that is
already there. -/
theorem step_inside (hpc : p < pc ∧ pc ≤ i) {s s₂ s' : State W} (hinv : ForwardInv fn p i t s)
    (hfetch : s.fetch H (fn.insn i).lhs = some v)
    (hpass : ∀ s : State W, s.fetch H (fn.insn i).lhs = some v → s.result H (fn.insn i) = some v)
    (hstore : s.storeDest H (fn.insn i).dest v = some s₂) (hagree : s₂.AgreeOff (· = t) s')
    (hstep : step H fn (.at pc s) = some d) :
    ∃ d', step H (fn.forward p i) (.at pc s') = some d' ∧ Forwarded H fn p i t d d' := by
  have hbound := h.bound
  have hlength := h.skeleton.length
  rcases Nat.lt_or_eq_of_le hpc.2 with hlt | rfl
  · have hinsn := h.insn_of_ne (show pc ≠ i by omega) (show pc ≠ p by omega)
    rcases h.between pc hpc.1 hlt with hnop | ⟨x, hk, hn, hcontrol, -, hreads, hwrites, hkeeps⟩
    · have hcontrol : (fn.insn pc).op.isControl = false := by
        rw [hnop]
        rfl
      rw [step_exec (by omega) hcontrol, State.exec_nop hnop, map_some] at hstep
      cases hstep
      refine ⟨.at (pc + 1) s', ?_, .inside (by omega) hinv hfetch hpass hstore hagree⟩
      rw [step_exec (by omega) (by rw [hinsn]; exact hcontrol), hinsn, State.exec_nop hnop, map_some]
    · rw [step_exec (by omega) hcontrol, map_eq_some_iff] at hstep
      obtain ⟨s₁, hexec, rfl⟩ := hstep
      obtain ⟨s₃, s₁', hstore₃, hexec', hagree'⟩ :=
        h.exec_inside hk hn hreads hwrites (by omega) hexec hstore hagree
      refine ⟨.at (pc + 1) s₁', ?_, .inside (by omega) (h.inv_exec hinv hexec) ?_ hpass hstore₃ hagree'⟩
      · rw [step_exec (by omega) (by rw [hinsn]; exact hcontrol), hinsn, h.skeleton.exec, hexec', map_some]
      · rw [← hfetch]
        simp only [State.fetch, h.lhs_kind, h.lhs_name, State.exec_env hexec hkeeps, if_true]
  · rw [step_exec hbound h.consumer_control, map_eq_some_iff] at hstep
    obtain ⟨s₁, hexec, rfl⟩ := hstep
    have hinv₁ := h.inv_exec hinv hexec
    rw [State.exec_simple h.consumer_simple, hpass s hfetch, bind_some, hstore] at hexec
    cases hexec
    refine ⟨.at (pc + 1) s', ?_, .outside (by omega) hinv₁ hagree⟩
    rw [step_exec (by omega) (by rw [h.insn_consumer]; rfl), h.insn_consumer, State.exec_nop rfl, map_some]

/-- The two runs keep step. -/
theorem simulation : Lib.Simulation (step H fn) (step H (fn.forward p i)) (Forwarded H fn p i t)
    (ForwardDoomed H fn p i) where
  follows := by
    intro c c' d hrel hstep
    cases hrel with
    | @outside pc s s' hpc hinv hagree =>
      by_cases hp : pc = p
      · subst hp
        exact h.step_producer hinv hagree hstep
      · exact Or.inl (h.step_outside hpc hp hinv hagree hstep)
    | inside hpc hinv hfetch hpass hstore hagree =>
      exact Or.inl (h.step_inside hpc hinv hfetch hpass hstore hagree hstep)
    | @returned v s s' hworld =>
      cases hstep
      exact Or.inl ⟨.returned v s', rfl, .returned hworld⟩
  doomed := by
    rintro c d ⟨hpc, hnop, hexec⟩ hstep
    rename_i pc s
    have hbound := h.bound
    rcases Nat.lt_or_eq_of_le hpc.2 with hlt | rfl
    · have hop := hnop pc hpc.1 hlt
      rw [step_exec (by omega) (by rw [hop]; rfl), State.exec_nop hop, map_some] at hstep
      cases hstep
      exact .mk (by omega) hnop hexec
    · rw [step_exec hbound h.consumer_control, hexec] at hstep
      cases hstep

/-- The producer reads what it read. -/
theorem observed_producer {s s' : State W} (hagree : s.AgreeOff (· = t) s') :
    s'.observed H ((fn.insn p).withDest (fn.insn i).dest) = s.observed H (fn.insn p) := by
  have hlt := h.lt
  have hreads : ∀ x, x = t → (fn.insn p).readsName x = false := fun x hx => hx ▸ h.only p (by omega)
  have hsources := Inst.sources_withDest h.single (fn.insn i).dest
  rw [← State.observed_agree hagree hreads]
  unfold State.observed
  rw [hsources]
  by_cases hcast : (fn.insn p).op = .cast
  · have hop : ((fn.insn p).withDest (fn.insn i).dest).op = .cast := hcast
    rw [if_pos hop, if_pos hcast]
    unfold State.result
    rw [State.effect_dest (by rw [hcast]; rfl) _ fun hassign => by rw [hcast] at hassign; cases hassign]
  · have hop : ¬ ((fn.insn p).withDest (fn.insn i).dest).op = .cast := hcast
    rw [if_neg hop, if_neg hcast]

/-- Forwarding keeps what the instructions that remain read. -/
theorem preserves {s : State W} (hs : ForwardInv fn p i t s) : fn.Preserves H (fn.forward p i) s := by
  have hlt := h.lt
  -- both functions start outside the region of the rewrite
  have hstart : Forwarded H fn p i t (.at 0 s) (.at 0 s) := .outside (by omega) hs (.refl _ s)
  intro n
  have hrun := h.simulation.run hstart n
  refine ⟨fun pc s₁ hn hop => ?_, fun v s₁ hn => ?_⟩
  · rw [stepN_eq_runN] at hn
    rcases hrun _ hn with ⟨c', hn', hrel⟩ | ⟨hpc, hnop, -⟩
    · cases hrel with
      | @outside _ _ s₁' hpc hinv hagree =>
        refine ⟨s₁', by rw [stepN_eq_runN, hn'], hagree.world, ?_⟩
        by_cases hp : pc = p
        · subst hp
          rw [h.insn_producer]
          exact h.observed_producer hagree
        · rw [h.insn_of_ne (by omega) hp]
          exact State.observed_agree hagree fun x hx => hx ▸ h.only pc (by omega)
      | @inside _ _ s₂ s₁' v hpc hinv hfetch hpass hstore hagree =>
        have hi : pc ≠ i := by
          rintro rfl
          rw [h.insn_consumer] at hop
          exact hop rfl
        rw [h.insn_of_ne hi (by omega)] at hop
        obtain ⟨x, hk, hn, -, -, hreads, -⟩ := (h.between pc hpc.1 (by omega)).resolve_left hop
        have hvar : ∀ y, (fn.insn i).dest.var = some y → y = x := by
          intro y hy
          simpa [Operand.var, hk, hn] using hy.symm
        have hearly := (State.agreeOff_storeDest hk hstore).mono hvar
        refine ⟨s₁', by rw [stepN_eq_runN, hn'], hagree.world.trans hearly.world, ?_⟩
        rw [h.insn_of_ne hi (by omega), State.observed_agree hagree fun y hy => hy ▸ h.only pc hi]
        exact State.observed_agree hearly fun y hy => hy ▸ hreads
    · -- the run before the rewrite is at a `NOP` here
      exfalso
      rcases Nat.lt_or_eq_of_le hpc.2 with hpi | rfl
      · rw [h.insn_of_ne (by omega) (by omega)] at hop
        exact hop (hnop pc hpc.1 hpi)
      · rw [h.insn_consumer] at hop
        exact hop rfl
  · rw [stepN_eq_runN] at hn
    rcases hrun _ hn with ⟨c', hn', hrel⟩ | hdoomed
    · cases hrel with
      | @returned _ _ s₁' hworld => exact ⟨s₁', by rw [stepN_eq_runN, hn'], hworld⟩
    · cases hdoomed

end Forwardable

end Forward

end Mettle.Ir

import Mettle.Ir.DeadTemps

/-!
# Runs without the dead writes

The run after the pass beside the run before it: the same places, and states that differ in the
temporaries whose definitions are gone. As long as no instruction that is left reads one of these, each
step before the pass is a step after it and the other way round (`Function.eliminate_step`). That is so
where the reads of a temporary are counted and lie below its definition (`Function.ReadsBelow`).
-/

open Option

namespace Mettle.Ir

variable {W : Type} {H : Host W} {fn : Function}

/-- The pass removes the instruction in no function. -/
def Inst.isFixed (i : Inst) : Bool := !(i.writesTemp && i.isTriviallyDead)

/-- An instruction takes the address of a symbol. -/
def Inst.takesAddress (i : Inst) (x : String) : Prop :=
  i.op = .addressOf ∧ i.lhs.kind = .symbol ∧ i.lhs.name = some x

namespace Function

/-- A temporary whose definition goes. -/
def DeadName (fn : Function) (t : String) : Prop :=
  ∃ d, ¬ Needed fn.instructions d ∧ (fn.insn d).definesTemp t = true

/-- An instruction that the pass removes in no function, or one whose temporary is counted as used by such
an instruction further down. -/
def Stays (fn : Function) (d : ℕ) : Prop :=
  (fn.insn d).isFixed = true ∨
    ∃ k t, d < k ∧ (fn.insn d).definesTemp t = true ∧ t ∈ (fn.insn k).tempUses ∧ (fn.insn k).isFixed = true

/-- What the scan takes for granted of the function. The reads of a temporary are counted, and they lie
below its definition; where one does not, the definition stays for another reason. A concatenation of
strings stays, and so does an instruction that takes the address of a scalar local, if the local would
move to the frame without it. -/
structure ReadsBelow (H : Host W) (fn : Function) : Prop where
  reads : ∀ d t, (fn.insn d).definesTemp t = true →
    fn.Stays d ∨ ∀ k, (fn.insn k).readsName t = true → t ∈ (fn.insn k).tempUses ∧ d < k
  concat : ∀ d, (fn.insn d).op = .binary → (fn.insn d).isConcat = true → fn.Stays d
  address : ∀ d x, (fn.insn d).takesAddress x → (∃ k, fn.Stays k ∧ (fn.insn k).takesAddress x) ∨
    ∀ j, (fn.insn j).op = .declareLocal → (fn.insn j).dest.name = some x → H.declaredVar {} (fn.insn j) x = none

/-- What follows for what the scan leaves. An instruction that is left reads no temporary whose definition
goes, no string is concatenated where the result is not used, and a scalar local does not move from memory
to the frame because its address is no longer taken. -/
structure DeadUnread (H : Host W) (fn : Function) : Prop where
  reads : ∀ k, Needed fn.instructions k → ∀ t, (fn.insn k).readsName t = true →
    ∀ d, (fn.insn d).definesTemp t = true → Needed fn.instructions d
  concat : ∀ d, ¬ Needed fn.instructions d → (fn.insn d).op = .binary → (fn.insn d).isConcat = false
  address : ∀ d, ¬ Needed fn.instructions d → ∀ x, (fn.insn d).takesAddress x →
    (∃ k, Needed fn.instructions k ∧ (fn.insn k).takesAddress x) ∨
      ∀ j, (fn.insn j).op = .declareLocal → (fn.insn j).dest.name = some x →
        H.declaredVar {} (fn.insn j) x = none

variable {x : String} {j : ℕ}

theorem needed_of_isFixed (h : (fn.insn j).isFixed = true) : Needed fn.instructions j := by
  rw [Inst.isFixed, Bool.not_eq_true'] at h
  exact .fixed h

theorem Stays.needed (h : fn.Stays j) : Needed fn.instructions j := by
  rcases h with hfixed | ⟨k, t, hlt, hdef, huse, hfixed⟩
  · exact needed_of_isFixed hfixed
  · exact .used hdef hlt huse (needed_of_isFixed hfixed)

/-- A read below the definition that is left is counted, so the definition is left too. -/
theorem ReadsBelow.deadUnread (h : fn.ReadsBelow H) : fn.DeadUnread H where
  reads := by
    intro k hneed t hread d hdef
    rcases h.reads d t hdef with hstays | hbelow
    · exact hstays.needed
    · obtain ⟨huse, hlt⟩ := hbelow k hread
      exact .used hdef hlt huse hneed
  concat := by
    intro d hdead hop
    by_contra hconcat
    exact hdead (h.concat d hop (by simpa using hconcat)).needed
  address := by
    intro d _ x haddr
    exact (h.address d x haddr).imp_left fun ⟨k, hstays, haddr⟩ => ⟨k, hstays.needed, haddr⟩

/-- A needed instruction reads no removed temporary. -/
theorem DeadUnread.not_reads (h : fn.DeadUnread H) {k : ℕ} (hneed : Needed fn.instructions k) (hx : fn.DeadName x) :
    (fn.insn k).readsName x = false := by
  obtain ⟨d, hdead, hdef⟩ := hx
  by_contra hread
  exact hdead (h.reads k hneed x (by simpa using hread) d hdef)

/-- Wherever a run from a state comes to an instruction that may go, the operands of the instruction are
in scope, and the operator is one of the interpreter's. -/
structure WellScoped (H : Host W) (fn : Function) (c : Config W) : Prop where
  known : ∀ j, (fn.insn j).isTriviallyDead = true → (fn.insn j).isKnown H.floats = true
  operands : ∀ n pc s, stepN H fn n c = some (.at pc s) → (fn.insn pc).writesTemp = true →
    (fn.insn pc).isTriviallyDead = true → s.InScope H (fn.insn pc)

/-- Steps keep the scopes in order. -/
theorem WellScoped.next {c c₁ : Config W} (h : fn.WellScoped H c) (hstep : step H fn c = some c₁) :
    fn.WellScoped H c₁ where
  known := h.known
  operands := by
    intro n pc s hrun
    refine h.operands (n + 1) pc s ?_
    rw [stepN, hstep, bind_some]
    exact hrun

/-- A needed instruction is kept. -/
theorem insn_eliminate (hdefs : fn.SingleDefs) (h : Needed fn.instructions j) :
    fn.eliminateDeadTempWrites.insn j = fn.insn j :=
  (LiveScan.scan_spec hdefs).kept j h

/-- Every other one becomes a `NOP`. -/
theorem insn_eliminate_dead (hdefs : fn.SingleDefs) (h : ¬ Needed fn.instructions j) :
    fn.eliminateDeadTempWrites.insn j = (fn.insn j).makeNop :=
  (LiveScan.scan_spec hdefs).removed j h

/-- An instruction that goes is a scalar write of a temporary. -/
theorem dead_insn (h : ¬ Needed fn.instructions j) :
    (fn.insn j).writesTemp = true ∧ (fn.insn j).isTriviallyDead = true := by
  have hboth : ((fn.insn j).writesTemp && (fn.insn j).isTriviallyDead) ≠ false := fun hfixed => h (.fixed hfixed)
  rwa [Ne, Bool.not_eq_false, Bool.and_eq_true] at hboth

/-- What is removed computes a value and cannot fault. -/
theorem dead_op (h : ¬ Needed fn.instructions j) :
    (fn.insn j).op ∈ ([.assign, .addressOf, .binary, .unary, .cast] : List Opcode) ∧
      (fn.insn j).divideMayFault = false := by
  have htrivial := (dead_insn h).2
  rw [Inst.isTriviallyDead, decide_eq_true_eq] at htrivial
  exact ⟨htrivial.1, by simpa using htrivial.2⟩

/-- Every other instruction is needed. -/
theorem needed_of_op (h : (fn.insn j).op ∉ ([.assign, .addressOf, .binary, .unary, .cast] : List Opcode)) :
    Needed fn.instructions j := by
  by_contra hdead
  exact h (dead_op hdead).1

/-! ## Labels and locals -/

/-- The labels are where they were. -/
theorem eliminate_sameFlow (hdefs : fn.SingleDefs) : SameFlow fn fn.eliminateDeadTempWrites where
  length := (LiveScan.scan_spec hdefs).length
  findLabel := by
    refine findLabel_congr (LiveScan.scan_spec hdefs).length fun j _ name => ?_
    by_cases h : Needed fn.instructions j
    · rw [insn_eliminate hdefs h]
    · rw [insn_eliminate_dead hdefs h]
      constructor
      · rintro ⟨hop, -⟩
        cases hop
      · rintro ⟨hop, -⟩
        exact absurd (needed_of_op (by rw [hop]; decide)) h
  returns := rfl

/-- An instruction that declares nothing where there is no variable declares nothing. -/
theorem declaredVar_none {i : Inst} (h : H.declaredVar {} i x = none) (f : Function) :
    H.declaredVar f i x = none := by
  unfold Host.declaredVar at h ⊢
  simp only at h ⊢
  split at h
  · rename_i hstring
    rw [if_pos hstring]
  · rename_i hstring
    rw [if_neg hstring]
    rw [bind_eq_none_iff] at h ⊢
    intro shape hshape
    have := h shape hshape
    split at this
    · rename_i hcond
      rcases hcond with hcount | haddr
      · rw [if_pos (Or.inl hcount)]
      · cases haddr
    · cases this

/-- The declarations make the same variables. -/
theorem eliminate_declaredVar (hdefs : fn.SingleDefs) (hunread : fn.DeadUnread H)
    (hop : (fn.insn j).op = .declareLocal) (hname : (fn.insn j).dest.name = some x) :
    H.declaredVar fn.eliminateDeadTempWrites (fn.insn j) x = H.declaredVar fn (fn.insn j) x := by
  by_cases htaken : fn.eliminateDeadTempWrites.addressTaken x = fn.addressTaken x
  · unfold Host.declaredVar
    rw [htaken]
  -- the address was taken by an instruction that is gone, and by no other
  have hmono : fn.eliminateDeadTempWrites.addressTaken x = true → fn.addressTaken x = true := by
    rw [addressTaken_iff, addressTaken_iff]
    rintro ⟨k, hk, haddr⟩
    rw [(eliminate_sameFlow hdefs).length] at hk
    by_cases hneed : Needed fn.instructions k
    · rw [insn_eliminate hdefs hneed] at haddr
      exact ⟨k, hk, haddr⟩
    · rw [insn_eliminate_dead hdefs hneed] at haddr
      cases haddr.1
  have hboth : fn.addressTaken x = true ∧ fn.eliminateDeadTempWrites.addressTaken x ≠ true := by
    cases hout : fn.eliminateDeadTempWrites.addressTaken x <;> cases hin : fn.addressTaken x <;> simp_all
  obtain ⟨k, hk, haddr⟩ := (addressTaken_iff fn x).mp hboth.1
  have hleft : ∀ k, Needed fn.instructions k → ¬ (fn.insn k).takesAddress x := by
    intro k hneed haddr
    refine hboth.2 ((addressTaken_iff _ x).mpr ⟨k, ?_, ?_⟩)
    · rw [(eliminate_sameFlow hdefs).length]
      by_contra hlen
      unfold insn at haddr
      rw [List.getD_eq_default _ _ (by omega)] at haddr
      cases haddr.1
    · rw [insn_eliminate hdefs hneed]
      exact haddr
  rcases hunread.address k (fun hneed => hleft k hneed haddr) x haddr with ⟨k', hneed, haddr'⟩ | hmemory
  · exact absurd haddr' (hleft k' hneed)
  · rw [declaredVar_none (hmemory j hop hname), declaredVar_none (hmemory j hop hname)]

/-- Instructions do the same in the shorter function. -/
theorem eliminate_exec (hdefs : fn.SingleDefs) (hunread : fn.DeadUnread H) (j : ℕ) (s : State W) :
    s.exec H fn.eliminateDeadTempWrites (fn.insn j) = s.exec H fn (fn.insn j) := by
  unfold State.exec
  by_cases hop : (fn.insn j).op = .declareLocal
  · rw [if_pos hop, if_pos hop]
    unfold State.declareLocal
    split
    · rfl
    cases hname : (fn.insn j).dest.name with
    | none => rfl
    | some x =>
      rw [bind_some, bind_some, eliminate_declaredVar hdefs hunread hop hname]
  · rw [if_neg hop, if_neg hop]

/-! ## Steps -/

variable {pc : ℕ} {s s' : State W}

/-- An instruction that goes changes a dead temporary and nothing else. -/
theorem exec_dead (hunread : fn.DeadUnread H) (hdead : ¬ Needed fn.instructions pc)
    (hknown : (fn.insn pc).isKnown H.floats = true) (hscope : s.InScope H (fn.insn pc)) :
    ∃ t, s.exec H fn (fn.insn pc) = some t ∧ s.AgreeOff fn.DeadName t := by
  obtain ⟨hop, hfault⟩ := dead_op hdead
  obtain ⟨x, hn, hdef⟩ := Inst.exists_definesTemp (dead_insn hdead).1
  have hk : (fn.insn pc).dest.kind = .temp := by
    have hwrites := (dead_insn hdead).1
    rw [Inst.writesTemp, decide_eq_true_eq, Operand.isTemp, decide_eq_true_eq] at hwrites
    exact hwrites.1.1
  obtain ⟨v, hv⟩ := State.result_isSome hop hfault (hunread.concat pc hdead) hknown
    (by simp [Operand.isSymbol, hk]) hscope
  have hstore := State.storeDest_temp hk hn v (s := s) (H := H)
  refine ⟨_, ?_, (State.agreeOff_storeDest hk hstore).mono fun y hy => ?_⟩
  · rw [State.exec_simple (State.isSimple_of_op hop (hunread.concat pc hdead)), hv, bind_some]
    exact hstore
  have hvar : (fn.insn pc).dest.var = some x := by simp [Operand.var, hk, hn]
  obtain rfl : x = y := some.inj (hvar.symm.trans hy)
  exact ⟨pc, hdead, hdef⟩

/-- A step at an instruction that goes. -/
theorem step_dead (hdefs : fn.SingleDefs) (hunread : fn.DeadUnread H) (hdead : ¬ Needed fn.instructions pc)
    (hknown : (fn.insn pc).isKnown H.floats = true) (hscope : s.InScope H (fn.insn pc))
    (h : s.AgreeOff fn.DeadName s') :
    ∃ c c', step H fn (.at pc s) = some c ∧ step H fn.eliminateDeadTempWrites (.at pc s') = some c' ∧
      Config.AgreeOff fn.DeadName c c' := by
  obtain ⟨t, ht, hagree⟩ := exec_dead hunread hdead hknown hscope
  have hlen : pc < fn.instructions.length := by
    by_contra hlen
    refine hdead (needed_of_op ?_)
    unfold insn
    rw [List.getD_eq_default _ _ (by omega)]
    decide
  have hcontrol : (fn.insn pc).op.isControl = false := by
    have hop := (dead_op hdead).1
    simp only [List.mem_cons, List.not_mem_nil, or_false] at hop
    rcases hop with hop | hop | hop | hop | hop <;> rw [hop] <;> rfl
  refine ⟨.at (pc + 1) t, .at (pc + 1) s', ?_, ?_, .at (hagree.symm.trans h)⟩
  · rw [step_exec hlen hcontrol, ht, map_some]
  · apply step_nop
    · rwa [(eliminate_sameFlow hdefs).length]
    · rw [insn_eliminate_dead hdefs hdead]
      rfl

/-- One step before the pass and one after it: both stop with an error, or both go on alike. -/
theorem eliminate_step (hdefs : fn.SingleDefs) (hseparate : fn.Separate) (hunread : fn.DeadUnread H)
    {c c' : Config W} (hscope : fn.WellScoped H c) (h : Config.AgreeOff fn.DeadName c c') :
    Option.Rel (Config.AgreeOff fn.DeadName) (step H fn c) (step H fn.eliminateDeadTempWrites c') := by
  cases h with
  | returned h => exact .some (.returned h)
  | @«at» pc s s' h =>
    by_cases hneed : Needed fn.instructions pc
    · have hinsn := insn_eliminate hdefs hneed
      have hflow := eliminate_sameFlow hdefs
      have hlocal := eliminate_exec hdefs hunread pc
      have hreads : ∀ x, fn.DeadName x → (fn.insn pc).readsName x = false :=
        fun x => hunread.not_reads hneed
      have hsymbol : ∀ e ∈ (fn.insn pc).written, ∀ x, e.kind = .symbol → e.name = some x → ¬ fn.DeadName x := by
        rintro e he x hk hn ⟨d, hdead, hdef⟩
        obtain ⟨hwrites, hname⟩ := Inst.definesTemp_iff.mp hdef
        rw [Inst.writesTemp, decide_eq_true_eq, Operand.isTemp, decide_eq_true_eq] at hwrites
        have htemp := hseparate d (fn.insn d).dest (by simp [Inst.operands]) hwrites.1.1 x hname
        exact htemp.written pc e he x hk hn rfl
      refine Lib.rel_of_imp (fun c hc => ?_) (fun c' hc' => ?_)
      · exact hflow.step_agree hinsn hlocal h hreads hsymbol hc
      · -- the steps are the same ones, so the functions may change sides
        obtain ⟨c, hc, -⟩ := hflow.symm.step_agree hinsn.symm (fun t => by rw [hinsn, hlocal]) h.symm
          (fun x hx => by rw [hinsn]; exact hreads x hx) (fun e he => by rw [hinsn] at he; exact hsymbol e he)
          hc'
        exact ⟨c, hc⟩
    · have hboth := dead_insn hneed
      obtain ⟨c, c', hc, hc', hagree⟩ := step_dead hdefs hunread hneed (hscope.known pc hboth.2)
        (hscope.operands 0 pc s rfl hboth.1 hboth.2) h
      rw [hc, hc']
      exact .some hagree

/-- Both functions run in lockstep, off the removed temporaries. -/
theorem eliminate_lockstep (hdefs : fn.SingleDefs) (hseparate : fn.Separate) (hunread : fn.DeadUnread H) :
    Lib.Lockstep (step H fn) (step H fn.eliminateDeadTempWrites) (fn.WellScoped H) (Config.AgreeOff fn.DeadName) where
  follows := eliminate_step hdefs hseparate hunread
  inv := fun hscope hstep => hscope.next hstep

/-- No instruction that is left reads a temporary whose definition is gone, and the runs before and after
the pass go on alike or stop together. -/
theorem eliminateDeadTempWrites_preserves (hdefs : fn.SingleDefs) (hseparate : fn.Separate)
    (hbelow : fn.ReadsBelow H) (s : State W) (hscope : fn.WellScoped H (.at 0 s)) :
    (∀ j t, fn.DeadName t → (fn.eliminateDeadTempWrites.insn j).readsName t = false) ∧
      ∀ n, Option.Rel (Config.AgreeOff fn.DeadName) (stepN H fn n (.at 0 s))
        (stepN H fn.eliminateDeadTempWrites n (.at 0 s)) := by
  have hunread := hbelow.deadUnread
  constructor
  · intro j t hdead
    by_cases hneed : Needed fn.instructions j
    · rw [insn_eliminate hdefs hneed]
      exact hunread.not_reads hneed hdead
    · rw [insn_eliminate_dead hdefs hneed]
      rfl
  · intro n
    rw [stepN_eq_runN, stepN_eq_runN]
    exact (eliminate_lockstep hdefs hseparate hunread).run hscope (.at (State.AgreeOff.refl _ s)) n

/-! ## Two functions -/

/-- Temporaries written once each. -/
theorem singleDefs_of_names (h : fn.instructions.Pairwise fun i j =>
    i.writesTemp = true → j.writesTemp = true → i.dest.name ≠ j.dest.name) : fn.SingleDefs := by
  refine h.imp fun hne t hi => ?_
  by_contra hj
  obtain ⟨hwrites, hname⟩ := Inst.definesTemp_iff.mp hi
  obtain ⟨hwrites', hname'⟩ := Inst.definesTemp_iff.mp (by simpa using hj)
  exact hne hwrites hwrites' (hname.trans hname'.symm)

/-- The scalar instructions of a function have literal operands. -/
theorem wellScoped_of_literals (hknown : ∀ i ∈ fn.instructions, i.isTriviallyDead = true → i.isKnown H.floats = true)
    (hint : ∀ i ∈ fn.instructions, i.isTriviallyDead = true → i.op ≠ .addressOf ∧
      ∀ o ∈ i.sources, o.kind = .int) (c : Config W) : fn.WellScoped H c where
  known := forall_insn (P := fun i => i.isTriviallyDead = true → i.isKnown H.floats = true) (fun h => by cases h)
    hknown
  operands := by
    intro n pc s _ _ htrivial
    obtain ⟨hop, hkind⟩ := forall_insn (P := fun i => i.isTriviallyDead = true → i.op ≠ .addressOf ∧
      ∀ o ∈ i.sources, o.kind = .int) (fun h => by cases h) hint pc htrivial
    unfold State.InScope
    rw [if_neg hop]
    intro o ho
    refine ⟨.ofInt o.intValue, ?_⟩
    unfold State.fetch
    rw [hkind o ho]

/-- The frame at the start of a function without parameters. -/
def emptyFrame : State Unit where
  env := fun _ => none
  world := ()

/-- The first sum is not used. -/
def unusedSum : Function where
  instructions := [
    { op := .binary, dest := .ofTemp "a", lhs := .ofInt 1, rhs := .ofInt 2, text := some "+" },
    { op := .binary, dest := .ofTemp "b", lhs := .ofInt 3, rhs := .ofInt 4, text := some "+" },
    { op := .return, lhs := .ofTemp "b" }]

theorem unusedSum_readsBelow : unusedSum.ReadsBelow Host.scalars where
  reads := by
    intro d t hdef
    obtain ⟨-, hname⟩ := Inst.definesTemp_iff.mp hdef
    match d, hname with
    | 0, hname =>
      -- nothing reads the first sum
      refine .inr fun k hread => absurd hread ?_
      obtain rfl : "a" = t := by simpa [unusedSum, insn, Operand.ofTemp] using hname
      exact @forall_insn unusedSum (fun i => ¬ i.readsName "a" = true) (by decide) (by decide) k
    | 1, _ => exact .inl (.inr ⟨2, "b", by decide, by decide, by decide, by decide⟩)
    | 2, hname => simp [unusedSum, insn] at hname
    | _ + 3, hname => simp [unusedSum, insn] at hname
  concat := by
    intro d hop hconcat
    rw [@forall_insn unusedSum (fun i => i.op = .binary → i.isConcat = false) (by decide) (by decide) d hop] at hconcat
    cases hconcat
  address := by
    intro d x hx
    exact absurd hx.1 (@forall_insn unusedSum (fun i => i.op ≠ .addressOf) (by decide) (by decide) d)

theorem eliminateDeadTempWrites_preserves_unusedSum :
    (unusedSum.eliminateDeadTempWrites.insn 0).op = .nop ∧
      Option.Rel (Config.AgreeOff unusedSum.DeadName) (stepN Host.scalars unusedSum 3 (.at 0 emptyFrame))
        (stepN Host.scalars unusedSum.eliminateDeadTempWrites 3 (.at 0 emptyFrame)) :=
  ⟨by decide, (eliminateDeadTempWrites_preserves (singleDefs_of_names (by decide))
    (separate_of_names (by simp [unusedSum, Inst.operands, Operand.ofTemp, Operand.ofInt]))
    unusedSum_readsBelow emptyFrame (wellScoped_of_literals (by decide) (by decide) _)).2 3⟩

/-- The block that returns the sum is laid out before the block that computes it. -/
def returnsBelow : Function where
  instructions := [
    { op := .jump, text := some "sum" },
    { op := .label, text := some "done" },
    { op := .return, lhs := .ofTemp "t" },
    { op := .label, text := some "sum" },
    { op := .binary, dest := .ofTemp "t", lhs := .ofInt 1, rhs := .ofInt 2, text := some "+" },
    { op := .jump, text := some "done" }]

/-- The verifier has nothing against the function, and the pass removes the sum: the function returns
what an unwritten temporary holds. -/
theorem eliminate_loses_backward_use : ¬ ∀ (fn : Function) (dom : DomTree) (s : State Unit), fn.SingleDefs →
    fn.Separate → (∃ fuel, Dom.build fn.blocks 0 fuel = some dom) → fn.dominanceViolations dom = [] →
    fn.WellScoped Host.scalars (.at 0 s) → ∀ n, (stepN Host.scalars fn n (.at 0 s)).bind Config.value =
      (stepN Host.scalars fn.eliminateDeadTempWrites n (.at 0 s)).bind Config.value := by
  intro h
  have hnone : (Dom.build returnsBelow.blocks 0 20).map returnsBelow.dominanceViolations = some [] := by
    decide
  obtain ⟨dom, hdom, hviolations⟩ := Option.map_eq_some_iff.mp hnone
  have hruns := h returnsBelow dom emptyFrame
    (singleDefs_of_names (by decide))
    (separate_of_names (by simp [returnsBelow, Inst.operands, Operand.ofTemp, Operand.ofInt]))
    ⟨20, hdom⟩ hviolations
    (wellScoped_of_literals (by decide) (by decide) _) 6
  have hbefore : (stepN Host.scalars returnsBelow 6 (.at 0 emptyFrame)).bind Config.value = some (.ofInt 3) := by
    decide
  have hafter : (stepN Host.scalars returnsBelow.eliminateDeadTempWrites 6 (.at 0 emptyFrame)).bind Config.value =
      some .poison := by
    decide
  rw [hbefore, hafter] at hruns
  revert hruns
  decide

end Function

end Mettle.Ir

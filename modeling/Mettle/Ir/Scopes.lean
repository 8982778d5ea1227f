import Mettle.Ir.Coalesce

/-!
# Activations of a program

The interpreter runs a call of a function of the program as a new activation. `Scopes.host` is the host of a program in
which this is so to a bounded depth, over the host of everything else. Outside the frames there are globals, and locals
that live in memory; a name means a local in a function that has one of that name.
-/

open List Option Function

namespace Mettle.Ir

/-- A parameter or a declared local has the name. -/
def Function.hasLocal (fn : Function) (x : String) : Bool :=
  x ∈ fn.parameterNames ∨ ∃ i ∈ fn.instructions, i.op = .declareLocal ∧ i.dest.kind = .symbol ∧ i.dest.name = some x

/-- The function of a name. -/
def findFunction (functions : List Function) (name : Option String) : Option Function :=
  name.bind fun name => functions.find? fun fn => fn.name = name

/-- What a host does for activations: the globals, whether a name means a local of the current activation, the start of
an activation with its parameters, the return to the caller, and the function at an address. -/
structure Scopes (W : Type) where
  global : W → String → Option Value
  isLocal : W → String → Bool
  enter : W → Function → List Arg → Option (State W)
  leave : W → W → W
  resolve : W → BitVec 64 → Option String

namespace Scopes

variable {W : Type} (S : Scopes W) (H : Host W)

/-- One activation that returns within so many steps. -/
def activate (K : Host W) (fuel : ℕ) (w : W) (callee : Function) (args : List Arg) : Option (Value × W) :=
  (S.enter w callee args).bind fun s =>
    (stepN K callee fuel (.at 0 s)).bind fun c =>
      match c with
      | .returned v s' => some (v, S.leave w s'.world)
      | .at _ _ => none

/-- The host of a program, for calls to a bounded depth. -/
def host (functions : List Function) : ℕ → Host W
  | 0 => { H with call := fun _ _ _ => none, callIndirect := fun _ _ _ _ => none }
  | n + 1 =>
    { H with
      call := fun w i args =>
        match findFunction functions i.text with
        | some callee => S.activate (host functions n) n w callee args
        | none => H.call w i args
      callIndirect := fun w i target args =>
        match findFunction functions (S.resolve w target) with
        | some callee => S.activate (host functions n) n w callee args
        | none => H.callIndirect w i target args }

/-- The scope, and the globals whose address is not taken, are kept. -/
def Keeps (taken : String → Bool) (w w' : W) : Prop :=
  S.isLocal w' = S.isLocal w ∧ ∀ g, taken g = false → S.global w' g = S.global w g

/-- A write by name reaches the variable of that name in the scope, an activation starts with its parameters, and what
works on memory, the code outside the program included, reaches globals whose address is taken only. An opcode that is
not in the table of those that write has no results. -/
structure Lawful (taken : String → Bool) : Prop where
  loadVar : ∀ {w x}, S.isLocal w x = false → H.loadVar w x = S.global w x
  storeVar : ∀ {w x v w'}, H.storeVar w x v = some w' → S.isLocal w' = S.isLocal w ∧
    ∀ g, g ≠ x ∨ S.isLocal w x = true → S.global w' g = S.global w g
  enter : ∀ {w fn args s}, S.enter w fn args = some s → (∀ x, s.env x ≠ none → fn.hasLocal x = true) ∧
    (∀ x, S.isLocal s.world x = fn.hasLocal x) ∧ S.global s.world = S.global w
  leave : ∀ {w w'}, S.isLocal (S.leave w w') = S.isLocal w ∧ S.global (S.leave w w') = S.global w'
  declareVar : ∀ {w i w'}, H.declareVar w i = some w' → S.Keeps taken w w'
  concat : ∀ {w a b r w'}, H.concat w a b = some (r, w') → S.Keeps taken w w'
  new : ∀ {w size a w'}, H.new w size = some (a, w') → S.Keeps taken w w'
  store : ∀ {w i a size v x w'}, H.store w i a size v x = some w' → S.Keeps taken w w'
  kernel : ∀ {w i args vs w'}, H.kernel w i args = some (vs, w') →
    S.Keeps taken w w' ∧ (Inst.opWritesSymbol i.op = false → vs = [])
  call : ∀ {w i args v w'}, H.call w i args = some (v, w') → S.Keeps taken w w'
  callIndirect : ∀ {w i target args v w'}, H.callIndirect w i target args = some (v, w') → S.Keeps taken w w'

/-- The globals of a relation hold their integers. -/
def Holds (R : String → BitVec 64 → Prop) (w : W) : Prop := ∀ g v, R g v → S.global w g = some (.ofInt v)

variable {S H} {taken : String → Bool} {R : String → BitVec 64 → Prop}

/-- The globals that hold their integers do so still. -/
theorem Keeps.holds {w w' : W} (h : S.Keeps taken w w') (htaken : ∀ g v, R g v → taken g = false) (hholds : S.Holds R w) :
    S.Holds R w' := by
  intro g v hR
  rw [h.2 g (htaken g v hR)]
  exact hholds g v hR

/-- The state of an activation of a function in which the globals hold their integers. -/
structure Settled (S : Scopes W) (fn : Function) (R : String → BitVec 64 → Prop) (s : State W) : Prop where
  env : ∀ g v, R g v → fn.hasLocal g = false → s.env g = none
  scope : ∀ x, S.isLocal s.world x = fn.hasLocal x
  holds : S.Holds R s.world

/-- A host that differs from another in its calls, and these keep the scope and the globals. -/
structure KeepsCalls (S : Scopes W) (H K : Host W) (R : String → BitVec 64 → Prop) : Prop where
  eq : ∃ call callIndirect, K = { H with call := call, callIndirect := callIndirect }
  call : ∀ {w i args v w'}, K.call w i args = some (v, w') → S.Holds R w → S.isLocal w' = S.isLocal w ∧ S.Holds R w'
  callIndirect : ∀ {w i target args v w'}, K.callIndirect w i target args = some (v, w') → S.Holds R w →
    S.isLocal w' = S.isLocal w ∧ S.Holds R w'

/-- The instruction writes no global of the relation, by a symbol or by a temporary of its name. -/
structure Spares (fn : Function) (i : Inst) (R : String → BitVec 64 → Prop) : Prop where
  symbols : ∀ g v, R g v → ∀ o ∈ i.results, o.kind = .symbol → o.name = some g → Inst.opWritesSymbol i.op = true →
    fn.hasLocal g = true
  temps : ∀ g v, R g v → ∀ o ∈ i.results, o.kind = .temp → o.name ≠ some g

section

variable {K : Host W} {fn : Function} {s s' : State W} {i : Inst}

theorem settled_storeDest (hlaw : S.Lawful H taken) (hK : S.KeepsCalls H K R) {o : Operand} {v : Value}
    (hsymbol : ∀ g v, R g v → o.kind = .symbol → o.name = some g → fn.hasLocal g = true)
    (htemp : ∀ g v, R g v → o.kind = .temp → o.name ≠ some g) (hs : S.Settled fn R s)
    (h : s.storeDest K o v = some s') : S.Settled fn R s' := by
  obtain ⟨call, callIndirect, rfl⟩ := hK.eq
  unfold State.storeDest at h
  split at h
  · cases h
    exact hs
  -- a temp or a local has another name than the global
  · rename_i x hkind hname
    cases h
    refine ⟨?_, hs.scope, hs.holds⟩
    intro g v hR hlocal
    have hne : g ≠ x := fun heq => htemp g v hR hkind (by rw [hname, heq])
    exact (update_of_ne hne _ _).trans (hs.env g v hR hlocal)
  · rename_i x hkind hname
    split at h
    · cases h
      refine ⟨?_, hs.scope, hs.holds⟩
      intro g v hR hlocal
      have hne : g ≠ x := by
        rintro rfl
        rw [hsymbol g v hR hkind hname] at hlocal
        cases hlocal
      exact (update_of_ne hne _ _).trans (hs.env g v hR hlocal)
    · rw [map_eq_some_iff] at h
      obtain ⟨w, hw, rfl⟩ := h
      obtain ⟨hscope, hglobal⟩ := hlaw.storeVar hw
      refine ⟨hs.env, fun y => (congrFun hscope y).trans (hs.scope y), ?_⟩
      intro g v hR
      rw [hglobal g]
      · exact hs.holds g v hR
      · by_cases heq : g = x
        · subst heq
          exact .inr ((hs.scope g).trans (hsymbol g v hR hkind hname))
        · exact .inl heq
  · cases h

theorem settled_storeAll (hlaw : S.Lawful H taken) (hK : S.KeepsCalls H K R) {writes : List (Operand × Value)}
    (hsymbol : ∀ g v, R g v → ∀ w ∈ writes, w.1.kind = .symbol → w.1.name = some g → fn.hasLocal g = true)
    (htemp : ∀ g v, R g v → ∀ w ∈ writes, w.1.kind = .temp → w.1.name ≠ some g) (hs : S.Settled fn R s)
    (h : s.storeAll K writes = some s') : S.Settled fn R s' := by
  induction writes generalizing s with
  | nil =>
    cases h
    exact hs
  | cons w rest ih =>
    rw [State.storeAll, bind_eq_some_iff] at h
    obtain ⟨s₁, hfirst, hrest⟩ := h
    apply ih (fun g v hR w hw => hsymbol g v hR w (.tail _ hw))
      (fun g v hR w hw => htemp g v hR w (.tail _ hw)) ?_ hrest
    exact settled_storeDest hlaw hK (fun g v hR => hsymbol g v hR w (.head _))
      (fun g v hR => htemp g v hR w (.head _)) hs hfirst

section

variable (hlaw : S.Lawful H taken) (hK : S.KeepsCalls H K R) (htaken : ∀ g v, R g v → taken g = false)
include hlaw hK htaken

/-- The host after the effect of an instruction, and the opcodes without results. -/
theorem effect_keeps (hholds : S.Holds R s.world) {vs : List Value} {w : W} (h : s.effect K i = some (vs, w)) :
    (S.isLocal w = S.isLocal s.world ∧ S.Holds R w) ∧ (Inst.opWritesSymbol i.op = false → i.results.zip vs = []) := by
  have hkeeps {w' : W} (hk : S.Keeps taken s.world w') : S.isLocal w' = S.isLocal s.world ∧ S.Holds R w' :=
    ⟨hk.1, hk.holds htaken hholds⟩
  -- a kernel operation is left to the host
  by_cases hkernel : i.op.isKernel = true
  · obtain ⟨call, callIndirect, rfl⟩ := hK.eq
    rw [State.effect_kernel hkernel] at h
    obtain ⟨hk, hnone⟩ := hlaw.kernel h
    refine ⟨hkeeps hk, ?_⟩
    intro hop
    rw [hnone hop, zip_nil_right]
  · rw [Bool.not_eq_true] at hkernel
    have hresults : Inst.opWritesSymbol i.op = false → i.results.zip vs = [] := by
      intro hop
      unfold Inst.results
      unfold State.effect at h
      cases hop' : i.op <;> rw [hop'] at hop hkernel h <;> first
        | rfl
        | (cases hop; done)
        | (cases hkernel; done)
        | cases h
    refine ⟨?_, hresults⟩
    by_cases hpure : i.changesHost = false
    · rw [State.effect_world hpure h]
      exact ⟨rfl, hholds⟩
    -- of the others only these touch the world
    have hop : i.op = .store ∨ i.op = .new ∨ i.op = .call ∨ i.op = .callIndirect ∨ i.op = .binary := by
      simp only [Inst.changesHost, hkernel, Bool.false_or, Bool.not_eq_false, Bool.or_eq_true, Bool.and_eq_true,
        decide_eq_true_eq, mem_cons, not_mem_nil, or_false] at hpure
      tauto
    unfold State.effect at h
    rcases hop with hop | hop | hop | hop | hop <;> rw [hop] at h <;>
      simp only [bind_eq_bind, bind_eq_some_iff, some.injEq, Prod.mk.injEq] at h
    · obtain ⟨call, callIndirect, rfl⟩ := hK.eq
      obtain ⟨a, -, size, -, v, -, w', hstore, -, rfl⟩ := h
      exact hkeeps (hlaw.store hstore)
    · obtain ⟨call, callIndirect, rfl⟩ := hK.eq
      obtain ⟨size, -, ⟨a, w'⟩, hnew, -, rfl⟩ := h
      exact hkeeps (hlaw.new hnew)
    · obtain ⟨args, -, ⟨v, w'⟩, hcall, -, rfl⟩ := h
      exact hK.call hcall hholds
    · obtain ⟨target, -, args, -, ⟨v, w'⟩, hcall, -, rfl⟩ := h
      exact hK.callIndirect hcall hholds
    · obtain ⟨call, callIndirect, rfl⟩ := hK.eq
      obtain ⟨a, -, b, -, ⟨v, w'⟩, hbin, -, rfl⟩ := h
      unfold Host.binary at hbin
      split at hbin
      · simp only [map_eq_some_iff, Prod.mk.injEq] at hbin
        obtain ⟨⟨r, w''⟩, hcat, -, rfl⟩ := hbin
        exact hkeeps (hlaw.concat hcat)
      · split at hbin <;> simp only [map_eq_some_iff, Prod.mk.injEq] at hbin <;>
          obtain ⟨_, -, -, rfl⟩ := hbin <;> exact ⟨rfl, hholds⟩

/-- An instruction that falls through keeps the state of the activation. -/
theorem settled_exec (hi : i ∈ fn.instructions) (hspares : Spares fn i R) (hs : S.Settled fn R s)
    (h : s.exec K fn i = some s') : S.Settled fn R s' := by
  unfold State.exec at h
  split at h
  · rename_i hop
    unfold State.declareLocal at h
    split at h
    · cases h
    · rename_i hkind
      rw [not_not] at hkind
      rw [bind_eq_some_iff] at h
      obtain ⟨x, hname, hdeclared⟩ := h
      -- the declared name is a local of the function
      have hlocal : fn.hasLocal x = true := by
        rw [Function.hasLocal, decide_eq_true_eq]
        exact .inr ⟨i, hi, hop, hkind, hname⟩
      have hne (g : String) (hg : fn.hasLocal g = false) : g ≠ x := by
        rintro rfl
        rw [hlocal] at hg
        cases hg
      split at hdeclared
      · cases hdeclared
        refine ⟨?_, hs.scope, hs.holds⟩
        intro g v hR hg
        exact (update_of_ne (hne g hg) _ _).trans (hs.env g v hR hg)
      · rw [map_eq_some_iff] at hdeclared
        obtain ⟨w, hw, rfl⟩ := hdeclared
        obtain ⟨call, callIndirect, rfl⟩ := hK.eq
        have hk := hlaw.declareVar hw
        refine ⟨?_, fun y => (congrFun hk.1 y).trans (hs.scope y), hk.holds htaken hs.holds⟩
        intro g v hR hg
        exact (update_of_ne (hne g hg) _ _).trans (hs.env g v hR hg)
  · rw [bind_eq_some_iff] at h
    obtain ⟨⟨vs, w⟩, heffect, hstore⟩ := h
    obtain ⟨⟨hscope, hholds⟩, hnone⟩ := effect_keeps hlaw hK htaken hs.holds heffect
    have hmid : S.Settled fn R { s with world := w } :=
      ⟨hs.env, fun y => (congrFun hscope y).trans (hs.scope y), hholds⟩
    apply settled_storeAll hlaw hK ?_ ?_ hmid hstore
    · intro g v hR e he hkind hname
      cases hop : Inst.opWritesSymbol i.op with
      | true => exact hspares.symbols g v hR e.1 (of_mem_zip he).1 hkind hname hop
      | false =>
        rw [hnone hop] at he
        cases he
    · intro g v hR e he
      exact hspares.temps g v hR e.1 (of_mem_zip he).1

/-- A step of an activation. -/
theorem settled_step (hspares : ∀ i ∈ fn.instructions, Spares fn i R) (hs : S.Settled fn R s) {pc : ℕ} {c : Config W}
    (h : step K fn (.at pc s) = some c) : (∃ pc' s', c = .at pc' s' ∧ S.Settled fn R s') ∨
      ∃ v, c = .returned v s := by
  by_cases hlen : fn.instructions.length ≤ pc
  · rw [step, if_pos hlen] at h
    cases h
    exact .inr ⟨_, rfl⟩
  · rw [not_le] at hlen
    have hi : fn.insn pc ∈ fn.instructions := by
      rw [Function.insn, getD_eq_getElem _ _ hlen]
      exact getElem_mem hlen
    -- a jump, a branch or a return leaves the state as it is
    by_cases hcontrol : (fn.insn pc).op.isControl = true
    · have hstay : ∀ pc', c = .at pc' s → (∃ pc' s', c = .at pc' s' ∧ S.Settled fn R s') ∨ ∃ v, c = .returned v s :=
        fun pc' heq => .inl ⟨pc', s, heq, hs⟩
      simp only [step, if_neg (not_le.mpr hlen)] at h
      cases hop : (fn.insn pc).op <;> rw [hop] at hcontrol h <;> first | (cases hcontrol; done) | skip
      · rw [map_eq_some_iff] at h
        obtain ⟨target, -, rfl⟩ := h
        exact hstay target rfl
      · simp only [bind_eq_bind, bind_eq_some_iff] at h
        obtain ⟨cond, -, h⟩ := h
        split at h
        · cases h
          exact hstay _ rfl
        · rw [map_eq_some_iff] at h
          obtain ⟨target, -, rfl⟩ := h
          exact hstay target rfl
      · simp only [bind_eq_bind, bind_eq_some_iff] at h
        obtain ⟨equal, -, h⟩ := h
        split at h
        · rw [map_eq_some_iff] at h
          obtain ⟨target, -, rfl⟩ := h
          exact hstay target rfl
        · cases h
          exact hstay _ rfl
      · simp only at h
        split at h
        · cases h
          exact .inr ⟨_, rfl⟩
        · rw [map_eq_some_iff] at h
          obtain ⟨v, -, rfl⟩ := h
          exact .inr ⟨_, rfl⟩
    · rw [Bool.not_eq_true] at hcontrol
      rw [step_exec hlen hcontrol, map_eq_some_iff] at h
      obtain ⟨s', hexec, rfl⟩ := h
      exact .inl ⟨_, s', rfl, settled_exec hlaw hK htaken hi (hspares _ hi) hs hexec⟩

/-- A run of an activation: the state is kept at every instruction, and the globals at the return. -/
theorem settled_run (hspares : ∀ i ∈ fn.instructions, Spares fn i R) {n pc : ℕ} (hs : S.Settled fn R s) {c : Config W}
    (h : stepN K fn n (.at pc s) = some c) : (∃ pc' s', c = .at pc' s' ∧ S.Settled fn R s') ∨
      ∃ v s', c = .returned v s' ∧ S.Settled fn R s' := by
  induction n generalizing pc s with
  | zero =>
    cases h
    exact .inl ⟨pc, s, rfl, hs⟩
  | succ n ih =>
    rw [stepN, bind_eq_some_iff] at h
    obtain ⟨c', hstep, hrest⟩ := h
    rcases settled_step hlaw hK htaken hspares hs hstep with ⟨pc', s', rfl, hs'⟩ | ⟨v, rfl⟩
    · exact ih hs' hrest
    · have hstay (m : ℕ) : stepN K fn m (.returned v s) = some (.returned v s) := by
        induction m with
        | zero => rfl
        | succ m ihm => rw [stepN, step, bind_some, ihm]
      rw [hstay] at hrest
      cases hrest
      exact .inr ⟨v, s, rfl, hs⟩

end

end

/-- The start of an activation. -/
theorem settled_enter (hlaw : S.Lawful H taken) {w : W} {fn : Function} {args : List Arg} {s : State W}
    (hholds : S.Holds R w) (h : S.enter w fn args = some s) : S.Settled fn R s := by
  obtain ⟨henv, hscope, hglobal⟩ := hlaw.enter h
  refine ⟨?_, hscope, ?_⟩
  · intro g v _ hlocal
    by_contra hsome
    rw [henv g hsome] at hlocal
    cases hlocal
  · intro g v hR
    rw [hglobal]
    exact hholds g v hR

/-- At every depth calls keep the globals that no function writes. -/
theorem host_keepsCalls (hlaw : S.Lawful H taken) (htaken : ∀ g v, R g v → taken g = false) {functions : List Function}
    (hspares : ∀ fn ∈ functions, ∀ i ∈ fn.instructions, Spares fn i R) (n : ℕ) :
    S.KeepsCalls H (S.host H functions n) R := by
  -- on the depth of the calls: one level deeper, the callee's body runs under the hypothesis
  induction n with
  | zero =>
    refine ⟨⟨_, _, rfl⟩, ?_, ?_⟩
    · intro w i args v w' h
      cases h
    · intro w i target args v w' h
      cases h
  | succ n ih =>
    have hactivate {w w' : W} {callee : Function} {args : List Arg} {v : Value} {name : Option String}
        (hfind : findFunction functions name = some callee)
        (h : S.activate (S.host H functions n) n w callee args = some (v, w')) (hholds : S.Holds R w) :
        S.isLocal w' = S.isLocal w ∧ S.Holds R w' := by
      have hmem : callee ∈ functions := by
        rw [findFunction, bind_eq_some_iff] at hfind
        obtain ⟨x, -, hx⟩ := hfind
        exact List.mem_of_find?_eq_some hx
      rw [activate, bind_eq_some_iff] at h
      obtain ⟨s, henter, h⟩ := h
      rw [bind_eq_some_iff] at h
      obtain ⟨c, hrun, h⟩ := h
      rcases settled_run hlaw ih htaken (hspares callee hmem) (settled_enter hlaw hholds henter) hrun with
        ⟨pc', s', rfl, -⟩ | ⟨v', s', rfl, hs'⟩
      · cases h
      · simp only [some.injEq, Prod.mk.injEq] at h
        obtain ⟨rfl, rfl⟩ := h
        obtain ⟨hscope, hglobal⟩ := @hlaw.leave w s'.world
        refine ⟨hscope, ?_⟩
        intro g v hR
        rw [hglobal]
        exact hs'.holds g v hR
    refine ⟨⟨_, _, rfl⟩, ?_, ?_⟩
    · intro w i args v w' h hholds
      simp only [host] at h
      cases hfind : findFunction functions i.text with
      | some callee =>
        rw [hfind] at h
        exact hactivate hfind h hholds
      | none =>
        rw [hfind] at h
        have hk := hlaw.call h
        exact ⟨hk.1, hk.holds htaken hholds⟩
    · intro w i target args v w' h hholds
      simp only [host] at h
      cases hfind : findFunction functions (S.resolve w target) with
      | some callee =>
        rw [hfind] at h
        exact hactivate hfind h hholds
      | none =>
        rw [hfind] at h
        have hk := hlaw.callIndirect h
        exact ⟨hk.1, hk.holds htaken hholds⟩

/-- A read of a global that is no local of the function. -/
theorem Settled.fetch (hlaw : S.Lawful H taken) {K : Host W} (hK : S.KeepsCalls H K R) {fn : Function} {s : State W}
    (hs : S.Settled fn R s) {g : String} {v : BitVec 64} (hR : R g v) (hlocal : fn.hasLocal g = false) :
    s.fetch K (.ofSymbol g) = some (.ofInt v) := by
  obtain ⟨call, callIndirect, rfl⟩ := hK.eq
  have henv := hs.env g v hR hlocal
  have hload := hlaw.loadVar ((hs.scope g).trans hlocal)
  rw [State.fetch]
  simp only [Operand.ofSymbol, henv]
  exact hload.trans (hs.holds g v hR)

end Scopes

end Mettle.Ir

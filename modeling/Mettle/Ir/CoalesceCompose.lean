import Mettle.Ir.CoalesceForward

/-!
# Composing two casts

The outer cast reads what the inner one read, which becomes a `NOP`. Between the two the temporary of
the old run holds what the inner cast would compute from the state there.
-/

open Option

namespace Mettle.Ir

variable {W : Type} {H : Host W} {fn : Function} {escapes : String → Bool}

/-- A host whose calls, too, keep the symbols that do not escape: those that are neither global nor have
their address taken. -/
structure Host.Confined (H : Host W) (escapes : String → Bool) : Prop extends H.Lawful escapes where
  call : ∀ {w i args v w' y}, H.call w i args = some (v, w') → escapes y = false → H.Keeps w w' y
  callIndirect : ∀ {w i target args v w' y}, H.callIndirect w i target args = some (v, w') →
    escapes y = false → H.Keeps w w' y

/-- A host without variables of its own is confined. -/
theorem Host.scalars_confined (escapes : String → Bool) : Host.scalars.Confined escapes where
  toLawful := Host.scalars_lawful escapes
  call := fun h => by cases h
  callIndirect := fun h => by cases h

/-- An opcode that may write what it does not name. -/
def Opcode.reaches (op : Opcode) : Bool :=
  op.isKernel || op ∈ ([.store, .call, .callIndirect] : List Opcode)

/-- An instruction leaves an operand as it is. -/
def Inst.leaves (escapes : String → Bool) (i : Inst) (o : Operand) : Bool :=
  (o.var.all fun x => !i.writesName x) && !(i.op.reaches && o.isAliasable escapes)

/-- An instruction that leaves an operand alone keeps it. -/
theorem State.exec_leaves (hlaw : H.Confined escapes) {s s' : State W} {i : Inst} {o : Operand}
    (h : s.exec H fn i = some s') (hleaves : i.leaves escapes o = true) : State.Same H s s' o := by
  unfold Inst.leaves at hleaves
  rw [Bool.and_eq_true, Bool.not_eq_true', Bool.and_eq_false_iff] at hleaves
  obtain ⟨hwrites, hreach⟩ := hleaves
  have hne : ∀ x, o.var = some x → i.writesName x = false := by
    intro x hx
    simpa [hx] using hwrites
  by_cases hcall : i.op = .call ∨ i.op = .callIndirect
  · -- the results of a call are written after the callee has run
    have halias : o.isAliasable escapes = false := by
      refine hreach.resolve_left ?_
      rcases hcall with hop | hop <;> simp [Opcode.reaches, hop]
    have hdecl : i.op ≠ .declareLocal := by
      rcases hcall with hop | hop <;> simp [hop]
    have hwritten : ∀ x, o.var = some x → ∀ d ∈ i.results, d.var ≠ some x := by
      intro x hx d hd heq
      have := hne x hx
      unfold Inst.writesName Inst.written at this
      rw [if_neg hdecl, List.any_eq_false] at this
      exact this d hd (by simpa using heq)
    unfold State.exec at h
    rw [if_neg hdecl, bind_eq_some_iff] at h
    obtain ⟨⟨vs, w⟩, heffect, hstore⟩ := h
    refine State.Same.trans (State.same_of_keeps fun x hk hname => ?_)
      (State.storeAll_same hlaw.toLawful hstore fun x hx e he => hwritten x hx e.1 (List.of_mem_zip he).1)
    have hescape : escapes x = false := by
      unfold Operand.isAliasable at halias
      simpa [hk, hname] using halias
    unfold State.effect at heffect
    rcases hcall with hop | hop <;> rw [hop] at heffect <;>
      simp only [bind_eq_bind, bind_eq_some_iff, some.injEq, Prod.mk.injEq] at heffect
    · obtain ⟨args, -, ⟨v, w'⟩, hrun, -, rfl⟩ := heffect
      exact hlaw.call hrun hescape
    · obtain ⟨target, -, args, -, ⟨v, w'⟩, hrun, -, rfl⟩ := heffect
      exact hlaw.callIndirect hrun hescape
  · refine State.exec_same hlaw.toLawful h (not_or.mp hcall) hne fun hmem => hreach.resolve_left ?_
    rcases hmem with hop | hop <;> simp [Opcode.reaches, hop]

/-- An integer cast of a value. -/
def castValue (size : ℕ) (isUnsigned : Bool) (a : Value) : Value :=
  { Value.ofInt (narrowInt a.i size isUnsigned) with undefined := a.undefined }

/-- What an integer cast of a value that is no float computes. -/
theorem State.result_cast {s : State W} {i : Inst} {size : ℕ} {isUnsigned : Bool} {a : Value}
    (hop : i.op = .cast) (htype : i.text.bind integerCastWidth = some (size, isUnsigned))
    (hfetch : s.fetch H i.lhs = some a) (ha : a.isFloat = false) :
    s.result H i = some (castValue size isUnsigned a) := by
  rw [bind_eq_some_iff] at htype
  obtain ⟨type, htext, hwidth⟩ := htype
  simp only [State.result, State.effect, hop, hfetch, htext, getD_some, bind_eq_bind,
    bind_some, FloatOps.cast_integer hwidth ha, List.head?_cons]
  rfl

/-- A cast of another operand to another type. -/
def Inst.recast (i : Inst) (source : Operand) (type : Option String) : Inst :=
  { i with lhs := source, text := type }

section Compose

variable {p i : ℕ} {t : String} {type : Option String} {s₁ s₂ : ℕ} {u₁ u₂ : Bool}

/-- The instructions after two casts became one. -/
theorem Function.compose_insn (hp : p < i) (hi : i < fn.instructions.length) (j : ℕ) :
    (fn.compose p i type).insn j =
      if j = p then (fn.insn p).makeNop
      else if j = i then (fn.insn i).recast (fn.insn p).lhs type else fn.insn j := by
  unfold compose
  rw [insn_setInsn _ (by rw [length_setInsn]; omega), insn_setInsn _ hi]
  rfl

/-- What a composition needs: the temporary passes from the inner cast to the outer one alone, the
source of the inner cast is what it was when the outer one is reached, and no sign is lost. -/
structure Composable (escapes : String → Bool) (fn : Function) (p i : ℕ) (t : String)
    (type : Option String) (s₁ s₂ : ℕ) (u₁ u₂ : Bool) : Prop where
  lt : p < i
  bound : i < fn.instructions.length
  inner : (fn.insn p).op = .cast
  inner_type : (fn.insn p).text.bind integerCastWidth = some (s₁, u₁)
  outer : (fn.insn i).op = .cast
  outer_type : (fn.insn i).text.bind integerCastWidth = some (s₂, u₂)
  type_eq : type = if s₂ ≤ s₁ then (fn.insn i).text else (fn.insn p).text
  dest_kind : (fn.insn p).dest.kind = .temp
  dest_name : (fn.insn p).dest.name = some t
  lhs_kind : (fn.insn i).lhs.kind = .temp
  lhs_name : (fn.insn i).lhs.name = some t
  only : ∀ j, j ≠ i → (fn.insn j).readsName t = false
  temp : fn.OnlyTemp t
  sign : castLosesSign s₁ u₁ s₂ u₂ = false
  unlabelled : ∀ k, p < k → k < i → (fn.insn k).op ≠ .label
  between : ∀ k, p < k → k < i → (fn.insn k).writesName t = false ∧
    (fn.insn k).leaves escapes (fn.insn p).lhs = true

/-- The run after the composition beside the run before it. -/
inductive Composed (H : Host W) (fn : Function) (p i : ℕ) (t : String) (s₁ : ℕ) (u₁ : Bool) :
    Config W → Config W → Prop
  | outside {pc : ℕ} {s s' : State W} (hpc : ¬ (p < pc ∧ pc ≤ i)) (hshape : Var.SameShape none (s.env t))
      (hagree : s.AgreeOff (· = t) s') : Composed H fn p i t s₁ u₁ (.at pc s) (.at pc s')
  | inside {pc : ℕ} {s s' : State W} {a : Value} (hpc : p < pc ∧ pc ≤ i)
      (hshape : Var.SameShape none (s.env t)) (hagree : s.AgreeOff (· = t) s')
      (hsource : s.fetch H (fn.insn p).lhs = some a) (ha : a.isFloat = false)
      (htemp : s.fetch H (fn.insn i).lhs = some (castValue s₁ u₁ a)) :
      Composed H fn p i t s₁ u₁ (.at pc s) (.at pc s')
  | returned {v : Value} {s s' : State W} (hworld : s'.world = s.world) :
      Composed H fn p i t s₁ u₁ (.returned v s) (.returned v s')

namespace Composable

variable (h : Composable escapes fn p i t type s₁ s₂ u₁ u₂)

include h

/-- All other instructions stay. -/
theorem insn_of_ne {j : ℕ} (hi : j ≠ i) (hp : j ≠ p) : (fn.compose p i type).insn j = fn.insn j := by
  rw [Function.compose_insn h.lt h.bound, if_neg hp, if_neg hi]

theorem insn_inner : (fn.compose p i type).insn p = (fn.insn p).makeNop := by
  rw [Function.compose_insn h.lt h.bound, if_pos rfl]

theorem insn_outer : (fn.compose p i type).insn i =
    (fn.insn i).recast (fn.insn p).lhs type := by
  rw [Function.compose_insn h.lt h.bound, if_neg (by have := h.lt; omega), if_pos rfl]

/-- Labels and declarations stay where they were. -/
theorem skeleton : SameSkeleton fn (fn.compose p i type) where
  length := by
    unfold Function.compose
    rw [Function.length_setInsn, Function.length_setInsn]
  label := by
    intro j name
    by_cases hi : j = i
    · subst hi
      simp [h.insn_outer, h.outer, Inst.recast]
    · by_cases hp : j = p
      · subst hp
        simp [h.insn_inner, h.inner, Inst.makeNop]
      · rw [h.insn_of_ne hi hp]
  address := by
    intro j x
    by_cases hi : j = i
    · subst hi
      simp [h.insn_outer, h.outer, Inst.recast]
    · by_cases hp : j = p
      · subst hp
        simp [h.insn_inner, h.inner, Inst.makeNop]
      · rw [h.insn_of_ne hi hp]
  returns := rfl

variable {s s' : State W} {a : Value} {pc : ℕ} {d : Config W}

/-- The one cast computes what the two computed. -/
theorem result_outer (hagree : s.AgreeOff (· = t) s') (hsource : s.fetch H (fn.insn p).lhs = some a)
    (ha : a.isFloat = false) (htemp : s.fetch H (fn.insn i).lhs = some (castValue s₁ u₁ a)) :
    s'.result H ((fn.compose p i type).insn i) = s.result H (fn.insn i) := by
  have hlt := h.lt
  have hfetch : s'.fetch H (fn.insn p).lhs = some a := by
    rw [← hsource]
    refine State.fetch_agree hagree fun x hx hxt => ?_
    exact Inst.not_reads (hxt ▸ h.only p (by omega)) (by simp [Inst.sources, h.inner]) hx
  have hsize₁ := h.inner_type
  rw [bind_eq_some_iff] at hsize₁
  obtain ⟨type₁, -, hwidth₁⟩ := hsize₁
  have hsize₂ := h.outer_type
  rw [bind_eq_some_iff] at hsize₂
  obtain ⟨type₂, -, hwidth₂⟩ := hsize₂
  have hcompose := narrowInt_narrowInt (integerCastWidth_size hwidth₁) (integerCastWidth_size hwidth₂)
    h.sign a.i
  rw [State.result_cast h.outer h.outer_type htemp rfl, h.insn_outer]
  by_cases hle : s₂ ≤ s₁
  · rw [if_pos hle] at hcompose
    have htype : type.bind integerCastWidth = some (s₂, u₂) := by
      rw [h.type_eq, if_pos hle, h.outer_type]
    rw [State.result_cast (i := (fn.insn i).recast (fn.insn p).lhs type) h.outer htype
      hfetch ha]
    simp only [castValue, Value.ofInt, hcompose]
  · rw [if_neg hle] at hcompose
    have htype : type.bind integerCastWidth = some (s₁, u₁) := by
      rw [h.type_eq, if_neg hle, h.inner_type]
    rw [State.result_cast (i := (fn.insn i).recast (fn.insn p).lhs type) h.outer htype
      hfetch ha]
    simp only [castValue, Value.ofInt, hcompose]

/-- A place between the two is reached from the one before it only. -/
theorem not_label {k : ℕ} (hp : p < k) (hi : k ≤ i) : (fn.insn k).op ≠ .label := by
  rcases Nat.lt_or_eq_of_le hi with hlt | rfl
  · exact h.unlabelled k hp hlt
  · rw [h.outer]
    decide

/-- Away from the two casts both functions step alike. -/
theorem step_outside (hpc : ¬ (p < pc ∧ pc ≤ i)) (hne : pc ≠ p) (hshape : Var.SameShape none (s.env t))
    (hagree : s.AgreeOff (· = t) s') (hstep : step H fn (.at pc s) = some d) :
    ∃ d', step H (fn.compose p i type) (.at pc s') = some d' ∧ Composed H fn p i t s₁ u₁ d d' := by
  have hlt := h.lt
  have hi : pc ≠ i := by omega
  obtain ⟨d', hstep', hagree'⟩ := step_agree h.skeleton (h.insn_of_ne hi hne) hagree
    (fun x hx => hx ▸ h.only pc hi) (h.temp.written pc) hstep
  refine ⟨d', hstep', ?_⟩
  cases hagree' with
  | returned hret => exact .returned hret.world
  | @«at» pc' s₁ s₁' hat =>
    obtain ⟨-, ⟨rfl, hfind, -⟩ | ⟨rfl, rfl, -⟩ | ⟨hexec, rfl, -⟩⟩ := step_cases hstep
    · exact .outside (fun hin => h.not_label hin.1 hin.2 (findLabel_op hfind).2.1) hshape hat
    · exact .outside (by omega) hshape hat
    · exact .outside (by omega) (h.temp.declare pc hexec hshape) hat

/-- The inner cast is computed by the run before the rewrite alone. -/
theorem step_inner (hshape : Var.SameShape none (s.env t)) (hagree : s.AgreeOff (· = t) s')
    (hfloat : ∀ a, s.fetch H (fn.insn p).lhs = some a → a.isFloat = false) (hstep : step H fn (.at p s) = some d) :
    ∃ d', step H (fn.compose p i type) (.at p s') = some d' ∧ Composed H fn p i t s₁ u₁ d d' := by
  have hlt := h.lt
  have hbound := h.bound
  rw [step_exec (by omega) (by rw [h.inner]; rfl), map_eq_some_iff] at hstep
  obtain ⟨s₃, hexec, rfl⟩ := hstep
  have hshape₃ := h.temp.declare p hexec hshape
  rw [State.exec_simple (by simp [Inst.isSimple, h.inner]), bind_eq_some_iff] at hexec
  obtain ⟨v, hresult, hstore⟩ := hexec
  obtain ⟨a, hsource⟩ : ∃ a, s.fetch H (fn.insn p).lhs = some a := by
    cases hfetch : s.fetch H (fn.insn p).lhs with
    | none => simp [State.result, State.effect, h.inner, hfetch] at hresult
    | some a => exact ⟨a, rfl⟩
  rw [State.result_cast h.inner h.inner_type hsource (hfloat a hsource)] at hresult
  cases hresult
  have hvar : ∀ x, (fn.insn p).dest.var = some x → x = t := by
    intro x hx
    simpa [Operand.var, h.dest_kind, h.dest_name] using hx.symm
  have hwrite := (State.agreeOff_storeDest h.dest_kind hstore).mono hvar
  refine ⟨.at (p + 1) s', ?_, .inside (a := a) (by omega) hshape₃ (hwrite.symm.trans hagree) ?_
    (hfloat a hsource) ?_⟩
  · rw [step_exec (by rw [h.skeleton.length]; omega) (by rw [h.insn_inner]; rfl), h.insn_inner,
      State.exec_nop rfl, map_some]
  · rw [← hsource]
    refine State.fetch_agree hwrite fun x hx hxt => ?_
    exact Inst.not_reads (hxt ▸ h.only p (by omega)) (by simp [Inst.sources, h.inner]) hx
  · rw [← State.fetch_storeDest_temp h.dest_kind h.dest_name hshape hstore]
    simp only [State.fetch, h.lhs_kind, h.lhs_name, h.dest_kind, h.dest_name]

/-- Between them, too, with the inner result in one of them only. -/
theorem step_inside (hlaw : H.Confined escapes) (hpc : p < pc ∧ pc ≤ i) (hshape : Var.SameShape none (s.env t))
    (hagree : s.AgreeOff (· = t) s') (hsource : s.fetch H (fn.insn p).lhs = some a) (ha : a.isFloat = false)
    (htemp : s.fetch H (fn.insn i).lhs = some (castValue s₁ u₁ a)) (hstep : step H fn (.at pc s) = some d) :
    ∃ d', step H (fn.compose p i type) (.at pc s') = some d' ∧ Composed H fn p i t s₁ u₁ d d' := by
  have hbound := h.bound
  -- before the outer cast nothing writes what the inner one read
  rcases Nat.lt_or_eq_of_le hpc.2 with hlt | rfl
  · obtain ⟨hwrites, hleaves⟩ := h.between pc hpc.1 hlt
    obtain ⟨d', hstep', hagree'⟩ := step_agree h.skeleton
      (h.insn_of_ne (show pc ≠ i by omega) (show pc ≠ p by omega)) hagree
      (fun x hx => hx ▸ h.only pc (by omega)) (h.temp.written pc) hstep
    refine ⟨d', hstep', ?_⟩
    cases hagree' with
    | returned hret => exact .returned hret.world
    | @«at» pc' s₁ s₁' hat =>
      obtain ⟨-, ⟨rfl, hfind, -⟩ | ⟨rfl, rfl, -⟩ | ⟨hexec, rfl, -⟩⟩ := step_cases hstep
      · exact .outside (fun hin => h.not_label hin.1 hin.2 (findLabel_op hfind).2.1) hshape hat
      · exact .inside (by omega) hshape hat hsource ha htemp
      · refine .inside (by omega) (h.temp.declare pc hexec hshape) hat ?_ ha ?_
        · rw [State.fetch_same (State.exec_leaves hlaw hexec hleaves), hsource]
        · rw [← htemp]
          simp only [State.fetch, h.lhs_kind, h.lhs_name, State.exec_env hexec hwrites, if_true]
  -- the outer cast, which now casts the source itself
  · have hresult := h.result_outer hagree hsource ha htemp
    have hsimple : ((fn.compose p pc type).insn pc).isSimple = true := by
      rw [h.insn_outer]
      simp [Inst.isSimple, Inst.recast, h.outer]
    rw [step_exec hbound (by rw [h.outer]; rfl), map_eq_some_iff] at hstep
    obtain ⟨s₃, hexec, rfl⟩ := hstep
    have hshape₃ := h.temp.declare pc hexec hshape
    rw [State.exec_simple (by simp [Inst.isSimple, h.outer]), bind_eq_some_iff] at hexec
    obtain ⟨v, hv, hstore⟩ := hexec
    obtain ⟨s₃', hstore', hagree₃⟩ := State.storeDest_agree hagree v (fun x hk hn hx =>
      h.temp.symbol pc _ (by simp [Inst.operands]) hk (hx ▸ hn)) hstore
    refine ⟨.at (pc + 1) s₃', ?_, .outside (by omega) hshape₃ (hagree₃.mono fun x hx => hx.1)⟩
    rw [step_exec (by rw [h.skeleton.length]; exact hbound)
      (by rw [h.insn_outer]; simp [Inst.recast, h.outer, Opcode.isControl]), State.exec_simple hsimple, hresult, hv, bind_some, h.insn_outer]
    exact congrArg (Option.map (Config.at (pc + 1))) hstore'

/-- The two runs keep step, where the source of the inner cast holds no float in the run. -/
theorem simulation (hlaw : H.Confined escapes) (s : State W)
    (hfloat : ∀ n s', stepN H fn n (.at 0 s) = some (.at p s') →
      ∀ a, s'.fetch H (fn.insn p).lhs = some a → a.isFloat = false) :
    Lib.Simulation (step H fn) (step H (fn.compose p i type))
      (fun c c' => Composed H fn p i t s₁ u₁ c c' ∧ ∃ n, stepN H fn n (.at 0 s) = some c)
      fun _ => False where
  follows := by
    rintro c c' d ⟨hrel, n, hn⟩ hstep
    have hnext : stepN H fn (n + 1) (.at 0 s) = some d := by
      rw [stepN_eq_runN] at hn ⊢
      rw [Lib.runN_succ, hn, bind_some, hstep]
    refine Or.inl ?_
    suffices ∃ d', step H (fn.compose p i type) c' = some d' ∧ Composed H fn p i t s₁ u₁ d d' by
      obtain ⟨d', hstep', hrel'⟩ := this
      exact ⟨d', hstep', hrel', n + 1, hnext⟩
    cases hrel with
    | @outside pc _ s' hpc hshape hagree =>
      by_cases hp : pc = p
      · subst hp
        exact h.step_inner hshape hagree (hfloat n _ hn) hstep
      · exact h.step_outside hpc hp hshape hagree hstep
    | inside hpc hshape hagree hsource ha htemp =>
      exact h.step_inside hlaw hpc hshape hagree hsource ha htemp hstep
    | @returned v _ s' hworld =>
      cases hstep
      exact ⟨.returned v s', rfl, .returned hworld⟩
  doomed := fun hdoomed => hdoomed.elim

/-- Composing keeps what the instructions that remain read. -/
theorem preserves (hlaw : H.Confined escapes) (hs : Var.SameShape none (s.env t))
    (hfloat : ∀ n s', stepN H fn n (.at 0 s) = some (.at p s') → ∀ a, s'.fetch H (fn.insn p).lhs = some a → a.isFloat = false) :
    fn.Preserves H (fn.compose p i type) s := by
  have hlt := h.lt
  have hstart : Composed H fn p i t s₁ u₁ (.at 0 s) (.at 0 s) := .outside (by omega) hs (.refl _ s)
  intro n
  have hrun := (h.simulation hlaw s hfloat).run ⟨hstart, 0, rfl⟩ n
  refine ⟨fun pc s₁ hn hop => ?_, fun v s₁ hn => ?_⟩
  · rw [stepN_eq_runN] at hn
    obtain ⟨c', hn', hrel, -⟩ := (hrun _ hn).resolve_right id
    -- at the removed cast there is a hole on this side, so a place that is not one is another
    have hp : pc ≠ p := by
      rintro rfl
      rw [h.insn_inner] at hop
      exact hop rfl
    have hother : ∀ {s₁ s₁' : State W}, s₁.AgreeOff (· = t) s₁' → pc ≠ i →
        s₁'.observed H ((fn.compose p i type).insn pc) = s₁.observed H (fn.insn pc) := by
      intro s₁ s₁' hagree hi
      rw [h.insn_of_ne hi hp]
      exact State.observed_agree hagree fun x hx => hx ▸ h.only pc hi
    cases hrel with
    | @outside _ _ s₁' hpc hshape hagree =>
      exact ⟨s₁', by rw [stepN_eq_runN, hn'], hagree.world, hother hagree (by omega)⟩
    | @inside _ _ s₁' a hpc hshape hagree hsource ha htemp =>
      refine ⟨s₁', by rw [stepN_eq_runN, hn'], hagree.world, ?_⟩
      by_cases hi : pc = i
      · subst hi
        have hcast : ((fn.compose p pc type).insn pc).op = .cast := by
          rw [h.insn_outer]
          exact h.outer
        unfold State.observed
        rw [if_pos hcast, if_pos h.outer, h.result_outer hagree hsource ha htemp]
      · exact hother hagree hi
  · rw [stepN_eq_runN] at hn
    obtain ⟨c', hn', hrel, -⟩ := (hrun _ hn).resolve_right id
    cases hrel with
    | @returned _ _ s₁' hworld => exact ⟨s₁', by rw [stepN_eq_runN, hn'], hworld⟩

end Composable

end Compose

end Mettle.Ir

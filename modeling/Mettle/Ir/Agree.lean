import Mettle.Ir.Frame
import Mettle.Lib.Loop

/-!
# States that agree off some names

A pass that leaves out or moves the writes of some variables runs in states that differ there. Such
states stay alike as long as the instructions do not read these variables (`exec_agree`).
-/

open List Option Function

namespace Mettle.Ir

/-- The operands of an instruction. -/
def Inst.operands (i : Inst) : List Operand := i.dest :: i.lhs :: i.rhs :: i.arguments

/-- The operands whose values an instruction reads. -/
def Inst.sources (i : Inst) : List Operand :=
  match i.op with
  | .nop | .label | .prefetch | .safetyCheck | .jump | .declareLocal | .inlineAsm | .phi => []
  | .assign | .addressOf | .unary | .cast | .branchZero | .return => [i.lhs]
  | .load | .binary | .rotateAdd | .branchEq => [i.lhs, i.rhs]
  | .store => [i.dest, i.lhs, i.rhs]
  | .new => [i.rhs]
  | .select => i.lhs :: i.rhs :: i.arguments
  | .call => i.arguments
  | .callIndirect => i.lhs :: i.arguments
  | _ => i.dest :: i.lhs :: i.rhs :: i.arguments

/-- An instruction reads a variable of that name. -/
def Inst.readsName (i : Inst) (x : String) : Bool := i.sources.any fun o => o.var = some x

/-- Variables, made by a first write where there is none, that narrow a write in the same way. -/
def Var.SameShape (a b : Option Var) : Prop :=
  (a.getD { value := .poison }).size = (b.getD { value := .poison }).size ∧
    (a.getD { value := .poison }).isUnsigned = (b.getD { value := .poison }).isUnsigned ∧
    (a.getD { value := .poison }).isCstring = (b.getD { value := .poison }).isCstring

theorem Var.SameShape.refl (a : Option Var) : Var.SameShape a a := ⟨rfl, rfl, rfl⟩

theorem Var.SameShape.symm {a b : Option Var} (h : Var.SameShape a b) : Var.SameShape b a :=
  ⟨h.1.symm, h.2.1.symm, h.2.2.symm⟩

theorem Var.SameShape.trans {a b c : Option Var} (h : Var.SameShape a b) (h' : Var.SameShape b c) :
    Var.SameShape a c :=
  ⟨h.1.trans h'.1, h.2.1.trans h'.2.1, h.2.2.trans h'.2.2⟩

/-- A write leaves the same in variables of one shape. -/
theorem Var.SameShape.write_eq {F : FloatOps} {a b : Option Var} (h : Var.SameShape a b) (v : Value) :
    (b.getD { value := .poison }).write F v = (a.getD { value := .poison }).write F v := by
  obtain ⟨hsize, hunsigned, hcstring⟩ := h
  simp only [Var.write, hsize, hunsigned, hcstring]

/-- A write keeps the shape. -/
theorem Var.sameShape_write (F : FloatOps) (a : Option Var) (v : Value) :
    Var.SameShape a (some ((a.getD { value := .poison }).write F v)) := ⟨rfl, rfl, rfl⟩

variable {W : Type} {H : Host W}

namespace State

/-- Two states that differ only in the values of some names. -/
structure AgreeOff (D : String → Prop) (s s' : State W) : Prop where
  world : s'.world = s.world
  env : ∀ x, ¬ D x → s'.env x = s.env x
  shape : ∀ x, D x → Var.SameShape (s.env x) (s'.env x)

variable {D D' : String → Prop} {s s' s'' t t' : State W} {o : Operand} {i : Inst} {fn : Function}

theorem AgreeOff.refl (D : String → Prop) (s : State W) : AgreeOff D s s :=
  ⟨rfl, fun _ _ => rfl, fun x _ => Var.SameShape.refl (s.env x)⟩

theorem AgreeOff.symm (h : AgreeOff D s s') : AgreeOff D s' s :=
  ⟨h.world.symm, fun x hx => (h.env x hx).symm, fun x hx => (h.shape x hx).symm⟩

theorem AgreeOff.trans (h : AgreeOff D s s') (h' : AgreeOff D s' s'') : AgreeOff D s s'' :=
  ⟨h'.world.trans h.world, fun x hx => (h'.env x hx).trans (h.env x hx),
    fun x hx => (h.shape x hx).trans (h'.shape x hx)⟩

theorem AgreeOff.mono (h : AgreeOff D s s') (hle : ∀ x, D x → D' x) : AgreeOff D' s s' where
  world := h.world
  env := fun x hx => h.env x (fun hd => hx (hle x hd))
  shape := fun x _ => by
    by_cases hd : D x
    · exact h.shape x hd
    · rw [h.env x hd]
      exact Var.SameShape.refl _

/-- States that differ in no name are equal. -/
theorem AgreeOff.eq (h : AgreeOff (fun _ => False) s s') : s' = s := by
  obtain ⟨env, world⟩ := s
  obtain ⟨env', world'⟩ := s'
  have henv : env' = env := by
    funext x
    exact h.env x id
  have hworld : world' = world := h.world
  rw [henv, hworld]

/-- An operand off the names is the same in both. -/
theorem AgreeOff.same (h : AgreeOff D s s') (ho : ∀ x, o.var = some x → ¬ D x) : Same H s s' o := by
  intro x hx
  refine ⟨h.env x (ho x hx), fun _ => ?_⟩
  rw [h.world]
  exact Host.Keeps.refl H _ x

theorem fetch_agree (h : AgreeOff D s s') (ho : ∀ x, o.var = some x → ¬ D x) :
    s'.fetch H o = s.fetch H o :=
  fetch_same (h.same ho)

/-! ## Effects -/

/-- The effect of an instruction is a function of what it reads. -/
theorem effect_congr (hworld : s'.world = s.world)
    (hfetch : ∀ o ∈ i.sources, s'.fetch H o = s.fetch H o)
    (haddress : i.op = .addressOf → s'.addressOf H i.lhs = s.addressOf H i.lhs)
    (hassigned : i.op = .assign → s'.assigned H i = s.assigned H i) :
    s'.effect H i = s.effect H i := by
  have hint : ∀ o ∈ i.sources, s'.fetchInt H o = s.fetchInt H o := by
    intro o ho
    unfold fetchInt
    rw [hfetch o ho]
  have hargs : ∀ o ∈ i.sources, s'.fetchArg H o = s.fetchArg H o := by
    intro o ho
    unfold fetchArg
    rw [hfetch o ho]
  unfold Inst.sources at hfetch hint hargs
  unfold effect
  -- one instruction after another; only an assignment and an address look beyond their operands
  cases hop : i.op <;> rw [hop] at hfetch hint hargs <;> simp only [hworld]
  case assign => rw [hassigned hop]
  case addressOf => rw [haddress hop]
  case load => rw [hint _ (by simp), hint _ (by simp)]
  case store => rw [hint _ (by simp), hint _ (by simp), hfetch i.lhs (by simp)]
  case binary | rotateAdd => rw [hfetch _ (by simp), hfetch _ (by simp)]
  case unary | cast => rw [hfetch _ (by simp)]
  case new =>
    unfold newSize
    rw [hint _ (by simp)]
  case select =>
    have hget : ∀ k, s'.fetch H (i.arguments.getD k {}) = s.fetch H (i.arguments.getD k {}) := by
      intro k
      by_cases hk : k < i.arguments.length
      · rw [getD_eq_getElem _ _ hk]
        exact hfetch _ (by simp)
      · rw [getD_eq_default _ _ (by omega)]
        rfl
    unfold select
    simp only [fetchInt, hget, hfetch i.lhs (by simp), hfetch i.rhs (by simp)]
  case call => rw [Lib.mapM_congr_option hargs]
  case callIndirect =>
    rw [hint i.lhs (by simp), Lib.mapM_congr_option fun o ho => hargs o (.tail _ ho)]
  all_goals first | rfl | rw [map_congr_left hfetch]

/-- The states read the same operands, so an instruction has the same effect. -/
theorem effect_agree (h : AgreeOff D s s') (hreads : ∀ x, D x → i.readsName x = false) :
    s'.effect H i = s.effect H i := by
  have hsource : ∀ o ∈ i.sources, ∀ x, o.var = some x → ¬ D x := by
    intro o ho x hx hd
    have := hreads x hd
    unfold Inst.readsName at this
    rw [List.any_eq_false] at this
    exact this o ho (by simpa using hx)
  have hfetch : ∀ o ∈ i.sources, s'.fetch H o = s.fetch H o :=
    fun o ho => fetch_agree h (hsource o ho)
  refine effect_congr h.world hfetch (fun hop => ?_) (fun hop => ?_)
  · exact addressOf_same (h.same (hsource i.lhs (by simp [Inst.sources, hop])))
  · -- a `cstring` variable is one in both states
    have hcstring : ((i.dest.name.bind s'.env).any fun var => var.isCstring) =
        ((i.dest.name.bind s.env).any fun var => var.isCstring) := by
      cases i.dest.name with
      | none => rfl
      | some x =>
        simp only [bind_some]
        by_cases hd : D x
        · have hshape := (h.shape x hd).2.2
          cases hs : s.env x <;> cases hs' : s'.env x <;> simp_all
        · rw [h.env x hd]
    unfold assigned
    rw [hcstring, hfetch i.lhs (by simp [Inst.sources, hop])]

/-! ## Writes -/

/-- A store to a temporary always succeeds. -/
theorem storeDest_temp {o : Operand} {x : String} (hk : o.kind = .temp) (hn : o.name = some x)
    (v : Value) : s.storeDest H o v =
      some { s with env := update s.env x (some
        (((s.env x).getD { value := .poison }).write H.floats v)) } := by
  simp only [storeDest, hk, hn]

/-- A write of a temporary changes only its value. -/
theorem agreeOff_storeDest {v : Value} (hk : o.kind = .temp) (hstore : s.storeDest H o v = some t) :
    AgreeOff (fun x => o.var = some x) s t := by
  cases hn : o.name with
  | none => simp [storeDest, hk, hn] at hstore
  | some x =>
    have hvar : o.var = some x := by simp [Operand.var, hk, hn]
    rw [storeDest_temp hk hn] at hstore
    cases hstore
    refine ⟨rfl, fun y hy => ?_, fun y hy => ?_⟩
    · have hne : y ≠ x := by
        rintro rfl
        exact hy hvar
      exact update_of_ne hne _ _
    · obtain rfl : x = y := some.inj (hvar.symm.trans hy)
      simp only [update_self]
      exact Var.sameShape_write H.floats (s.env x) v

/-- After a write of the same value the states agree on the name written, too. -/
theorem storeDest_agree (h : AgreeOff D s s') (v : Value)
    (hsymbol : ∀ x, o.kind = .symbol → o.name = some x → ¬ D x) (hstore : s.storeDest H o v = some t) :
    ∃ t', s'.storeDest H o v = some t' ∧ AgreeOff (fun x => D x ∧ o.var ≠ some x) t t' := by
  unfold storeDest at hstore ⊢
  -- the destination may be missing, a temp or a symbol
  split at hstore
  · cases hstore
    rename_i hkind
    exact ⟨s', rfl, h.mono fun x hx => ⟨hx, by simp [Operand.var, hkind]⟩⟩
  · rename_i x hkind hname
    have hvar : o.var = some x := by simp [Operand.var, hkind, hname]
    cases hstore
    have hshape : Var.SameShape (s.env x) (s'.env x) := by
      by_cases hd : D x
      · exact h.shape x hd
      · rw [h.env x hd]
        exact Var.SameShape.refl _
    refine ⟨_, rfl, h.world, fun y hy => ?_, fun y hy => ?_⟩
    · simp only [update_apply]
      split
      · rw [hshape.write_eq]
      · rename_i hne
        refine h.env y fun hd => hy ⟨hd, ?_⟩
        rw [hvar]
        exact fun heq => hne (some.inj heq).symm
    · have hne : y ≠ x := by
        rintro rfl
        exact hy.2 hvar
      simp only [update_of_ne hne]
      exact h.shape y hy.1
  -- a symbol is outside the names let go, so both environments hold the same variable
  · rename_i x hkind hname
    have hvar : o.var = some x := by simp [Operand.var, hkind, hname]
    have hx : s'.env x = s.env x := h.env x (hsymbol x hkind hname)
    simp only [hx, h.world]
    split at hstore
    · cases hstore
      refine ⟨_, rfl, rfl, fun y hy => ?_, fun y hy => ?_⟩
      · simp only [update_apply]
        split
        · rfl
        · rename_i hne
          refine h.env y fun hd => hy ⟨hd, ?_⟩
          rw [hvar]
          exact fun heq => hne (some.inj heq).symm
      · have hne : y ≠ x := by
          rintro rfl
          exact hy.2 hvar
        simp only [update_of_ne hne]
        exact h.shape y hy.1
    · rw [map_eq_some_iff] at hstore
      obtain ⟨w, hw, rfl⟩ := hstore
      refine ⟨{ s' with world := w }, by rw [hw, map_some], rfl, fun y hy => ?_, fun y hy => h.shape y hy.1⟩
      by_cases hyx : y = x
      · rw [hyx]
        exact hx
      · refine h.env y fun hd => hy ⟨hd, ?_⟩
        rw [hvar]
        exact fun heq => hyx (some.inj heq).symm
  · cases hstore

/-- Several stores, after which the names that were written agree as well. -/
theorem storeAll_agree {writes : List (Operand × Value)} (h : AgreeOff D s s')
    (hsymbol : ∀ e ∈ writes, ∀ x, e.1.kind = .symbol → e.1.name = some x → ¬ D x)
    (hstore : s.storeAll H writes = some t) :
    ∃ t', s'.storeAll H writes = some t' ∧
      AgreeOff (fun x => D x ∧ ∀ e ∈ writes, e.1.var ≠ some x) t t' := by
  induction writes generalizing s s' D with
  | nil =>
    cases hstore
    exact ⟨s', rfl, h.mono fun x hx => ⟨hx, by simp⟩⟩
  | cons e rest ih =>
    rw [storeAll, bind_eq_some_iff] at hstore
    obtain ⟨s₁, hfirst, hrest⟩ := hstore
    obtain ⟨s₁', hfirst', h₁⟩ := storeDest_agree h e.2 (hsymbol e (.head _)) hfirst
    obtain ⟨t', ht', hagree⟩ := ih h₁
      (fun e' he' x hk hn hd => hsymbol e' (.tail _ he') x hk hn hd.1) hrest
    refine ⟨t', by rw [storeAll, hfirst', bind_some, ht'], hagree.mono ?_⟩
    rintro x ⟨⟨hd, hne⟩, hall⟩
    refine ⟨hd, fun e' he' => ?_⟩
    rcases mem_cons.mp he' with rfl | hmem
    · exact hne
    · exact hall e' hmem

/-! ## Instructions -/

/-- An instruction that reads none of the names keeps the agreement. A symbol among the names is not
written. -/
theorem exec_agree (h : AgreeOff D s s') (hreads : ∀ x, D x → i.readsName x = false)
    (hsymbol : ∀ e ∈ i.written, ∀ x, e.kind = .symbol → e.name = some x → ¬ D x)
    (hexec : s.exec H fn i = some t) :
    ∃ t', s'.exec H fn i = some t' ∧ AgreeOff D t t' := by
  unfold Inst.written at hsymbol
  unfold exec at hexec ⊢
  split at hexec
  -- a declaration gives the variable a new value, which need not have been known before
  · rename_i hdecl
    rw [if_pos hdecl]
    rw [if_pos hdecl] at hsymbol
    unfold declareLocal at hexec ⊢
    split at hexec
    · cases hexec
    rename_i hkind
    rw [if_neg hkind]
    rw [bind_eq_some_iff] at hexec
    obtain ⟨x, hname, hexec⟩ := hexec
    have hx : ¬ D x := hsymbol i.dest (by simp) x (not_not.mp hkind) hname
    have hupdate : ∀ {var : Option Var} {w : W}, AgreeOff D
        { env := update s.env x var, world := w }
        { env := update s'.env x var, world := w } := by
      intro var w
      refine ⟨rfl, fun y hy => ?_, fun y hy => ?_⟩
      · simp only [update_apply]
        split
        · rfl
        · exact h.env y hy
      · have hne : y ≠ x := by
          rintro rfl
          exact hx hy
        simp only [update_of_ne hne]
        exact h.shape y hy
    rw [hname, bind_some, h.world]
    split at hexec
    · cases hexec
      exact ⟨_, rfl, hupdate⟩
    · rw [map_eq_some_iff] at hexec
      obtain ⟨w, hw, rfl⟩ := hexec
      exact ⟨{ env := update s'.env x none, world := w }, by rw [hw, map_some], hupdate⟩
  -- every other instruction reads its operands, has an effect and stores its results
  · rename_i hdecl
    rw [if_neg hdecl]
    rw [if_neg hdecl] at hsymbol
    rw [bind_eq_some_iff] at hexec
    obtain ⟨⟨vs, w⟩, heffect, hstore⟩ := hexec
    have hsymbol' : ∀ e ∈ i.results.zip vs, ∀ x, e.1.kind = .symbol → e.1.name = some x → ¬ D x :=
      fun e he => hsymbol e.1 (of_mem_zip he).1
    have hworld : AgreeOff D { s with world := w } { s' with world := w } := ⟨rfl, h.env, h.shape⟩
    obtain ⟨t', ht', hagree⟩ := storeAll_agree hworld hsymbol' hstore
    refine ⟨t', ?_, hagree.mono fun x hx => hx.1⟩
    rw [effect_agree h hreads, heffect, bind_some]
    exact ht'

/-! ## Instructions with one result -/

end State

/-- An instruction that computes one value and leaves the host alone. -/
def Inst.isSimple (i : Inst) : Bool :=
  i.op ∈ ([.assign, .addressOf, .load, .binary, .unary, .cast, .select] : List Opcode) &&
    ¬ (i.op = .binary ∧ i.isConcat)

namespace State

variable {D : String → Prop} {s s' t : State W} {i : Inst} {fn : Function}

/-- The value such an instruction computes. -/
def result (H : Host W) (s : State W) (i : Inst) : Option Value :=
  (s.effect H i).bind fun r => r.1.head?

/-- A simple instruction computes one value and leaves the world. -/
theorem effect_simple (h : i.isSimple = true) {vs : List Value} {w : W}
    (heffect : s.effect H i = some (vs, w)) : ∃ v, vs = [v] ∧ w = s.world := by
  unfold Inst.isSimple at h
  have hworld : w = s.world := by
    refine effect_world ?_ heffect
    unfold Inst.changesHost
    cases hop : i.op <;> rw [hop] at h <;> first | (cases h; done) | simp_all [Opcode.isKernel]
  refine Exists.imp (fun v hv => ⟨hv, hworld⟩) ?_
  unfold effect at heffect
  cases hop : i.op <;> rw [hop] at h heffect
  case assign | addressOf | load | binary | unary | cast | select =>
    simp only [bind_eq_bind, map_eq_some_iff, bind_eq_some_iff, some.injEq,
      Prod.mk.injEq] at heffect
    grind
  all_goals cases h

theorem exec_simple (h : i.isSimple = true) :
    s.exec H fn i = (s.result H i).bind (s.storeDest H i.dest) := by
  have hdecl : i.op ≠ .declareLocal := by
    intro hop
    simp [Inst.isSimple, hop] at h
  have hresults : i.results = [i.dest] := by
    unfold Inst.results
    cases hop : i.op <;> first | rfl | simp [Inst.isSimple, hop] at h
  unfold exec result
  rw [if_neg hdecl, hresults]
  cases heffect : s.effect H i with
  | none => rfl
  | some r =>
    obtain ⟨v, hv, hw⟩ := effect_simple h heffect
    obtain ⟨vs, w⟩ := r
    subst hv hw
    simp only [bind_some, zip_cons_cons, zip_nil_left, head?_cons, storeAll]
    cases s.storeDest H i.dest v <;> rfl

/-- The value depends on what the instruction reads. -/
theorem result_agree (h : AgreeOff D s s') (hreads : ∀ x, D x → i.readsName x = false) :
    s'.result H i = s.result H i := by
  unfold result
  rw [effect_agree h hreads]

/-- Such an instruction ends the difference in the name it writes. -/
theorem exec_simple_agree (h : AgreeOff D s s') (hsimple : i.isSimple = true)
    (hreads : ∀ x, D x → i.readsName x = false)
    (hsymbol : ∀ x, i.dest.kind = .symbol → i.dest.name = some x → ¬ D x)
    (hexec : s.exec H fn i = some t) :
    ∃ t', s'.exec H fn i = some t' ∧ AgreeOff (fun x => D x ∧ i.dest.var ≠ some x) t t' := by
  rw [exec_simple hsimple, bind_eq_some_iff] at hexec
  obtain ⟨v, hv, hstore⟩ := hexec
  rw [exec_simple hsimple, result_agree h hreads, hv, bind_some]
  exact storeDest_agree h v hsymbol hstore

end State

end Mettle.Ir

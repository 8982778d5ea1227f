import Mettle.Ir.CoalesceUses

/-!
# Coalescing keeps what is read

When every rewrite of `ir_coalesce_single_use_temp_assign_pass` meets its condition on the function as
it is before that rewrite, every value that a remaining instruction reads is unchanged
(`coalescePass_preserves`). The conditions are those the pass does not check.
-/

open Option

namespace Mettle.Ir

variable {W : Type} {H : Host W} {fn : Function} {escapes : String → Bool}

namespace Function

/-- The search skips `NOP`s only. -/
theorem lastBefore_spec {n k : ℕ} (h : fn.lastBefore n = some k) :
    k < n ∧ ∀ m, k < m → m < n → (fn.insn m).op = .nop := by
  induction n with
  | zero => cases h
  | succ n ih =>
    rw [lastBefore] at h
    split at h
    · rename_i hop
      obtain ⟨hk, hnop⟩ := ih h
      refine ⟨by omega, fun m hkm hmn => ?_⟩
      rcases Nat.lt_succ_iff_lt_or_eq.mp hmn with hlt | rfl
      · exact hnop m hkm hlt
      · exact hop
    · cases h
      exact ⟨by omega, fun m hkm hmn => by omega⟩

/-- The producer of a temporary, with no label behind it. -/
theorem findTempProducer_spec {t : String} {n k : ℕ} (h : fn.findTempProducer t n = some k) :
    k < n ∧ (fn.insn k).dest.kind = .temp ∧ (fn.insn k).dest.name = some t ∧
      ∀ m, k < m → m < n → (fn.insn m).op ≠ .label := by
  induction n with
  | zero => cases h
  | succ n ih =>
    have hearlier : fn.findTempProducer t n = some k → (fn.insn n).op ≠ .label →
        k < n + 1 ∧ (fn.insn k).dest.kind = .temp ∧ (fn.insn k).dest.name = some t ∧
          ∀ m, k < m → m < n + 1 → (fn.insn m).op ≠ .label := by
      intro hfind hlabel
      obtain ⟨hk, hkind, hname, hbetween⟩ := ih hfind
      refine ⟨by omega, hkind, hname, fun m hkm hmn => ?_⟩
      rcases Nat.lt_succ_iff_lt_or_eq.mp hmn with hlt | rfl
      · exact hbetween m hkm hlt
      · exact hlabel
    rw [findTempProducer] at h
    split at h
    · rename_i hop
      exact hearlier h (by rw [hop]; decide)
    · split at h
      · cases h
      · rename_i hlabel
        split at h
        · rename_i hwrites
          obtain rfl := some.inj h
          have hkind : (fn.insn n).dest.kind = .temp := by
            have := hwrites.1
            simp only [Inst.writesTemp, Operand.isTemp, decide_eq_true_eq] at this
            exact (by simpa using this.1 : _ ∧ _).1
          exact ⟨by omega, hkind, hwrites.2, fun m hkm hmn => by omega⟩
        · exact hearlier h hlabel

/-- A forwarding the loop over assignments makes: the producer has one result, and a literal stays what
it is. -/
def ForwardSafe (uses : String → ℕ) (s : State W) (fn : Function) (index : ℕ) : Prop :=
  ∀ k, fn.assignProducer uses index = some k →
    ((fn.insn k).op.isSingle = true ∨ (fn.insn k).op = .phi) ∧ fn.LiteralKept k index s

/-- A composition the loop over casts makes: no sign is lost, no instruction between the two casts writes
the source or the temporary, and the source is no float where the run computes the inner cast. -/
def ComposeSafe (H : Host W) (escapes : String → Bool) (uses : String → ℕ) (s : State W) (fn : Function)
    (index : ℕ) : Prop :=
  ∀ k type, fn.composedCast uses index = some (k, type) →
    (∀ s₁ u₁ s₂ u₂, (fn.insn k).text.bind builtinIntegerTypeInfo = some (s₁, u₁) →
      (fn.insn index).text.bind builtinIntegerTypeInfo = some (s₂, u₂) →
        castLosesSign s₁ u₁ s₂ u₂ = false) ∧
    (∀ m, k < m → m < index → (fn.insn m).leaves escapes (fn.insn k).lhs = true ∧
      (fn.insn m).leaves escapes (fn.insn k).dest = true) ∧
    ∀ n s', stepN H fn n (.at 0 s) = some (.at k s') →
      ∀ a, s'.fetch H (fn.insn k).lhs = some a → a.isFloat = false

/-- An absorption the last loop makes: the load extends with zeros and may write the destination of the
cast. -/
def AbsorbSafe (uses : String → ℕ) (fn : Function) (index : ℕ) : Prop :=
  ∀ k t, fn.absorbingLoad uses index = some k → (fn.insn index).lhs.name = some t →
    (fn.insn k).isUnsigned = true ∧ fn.WritesEarly k index t

end Function

/-- Loads that are not signed extend with zeros, as `ii_widen_loaded_int` does. -/
def Host.ZeroExtends (H : Host W) : Prop :=
  ∀ w i address size v, H.load w i address size = some v → i.isFloat = false → i.isUnsigned = true →
    ∃ x u, v = { Value.ofInt x with undefined := u } ∧ narrowInt x size.toNat true = x

/-- The function the pass has reached, beside the one it started from. -/
structure Coalesced (H : Host W) (uses : String → ℕ) (s : State W) (start fn : Function) : Prop where
  inv : CoalesceInv uses start.instructions.length fn
  entry : fn.Entry s
  preserves : start.Preserves H fn s

namespace Function

/-- What the pass asks of a copy and its producer. -/
theorem assignProducer_spec {uses : String → ℕ} {index k : ℕ} (h : fn.assignProducer uses index = some k) :
    ∃ t, (fn.insn index).op = .assign ∧ (fn.insn index).lhs.kind = .temp ∧
      (fn.insn index).lhs.name = some t ∧ uses t = 1 ∧ fn.lastBefore index = some k ∧
      (fn.insn k).dest.kind = .temp ∧ (fn.insn k).dest.name = some t := by
  simp only [assignProducer, bind_eq_bind, bind_eq_some_iff, guard_eq_some',
    exists_const] at h
  obtain ⟨t, hname, ⟨hop, hkind, -, huses⟩, k', hlast, ⟨-, hdest, hdestName⟩, -, hk⟩ := h
  cases hk
  exact ⟨t, hop, hkind, hname, huses, hlast, hdest, hdestName⟩

/-- What it asks of a cast of a temporary. -/
theorem castOfTemp_spec {uses : String → ℕ} {index size : ℕ} {t : String} {isUnsigned : Bool}
    (h : fn.castOfTemp uses index = some (t, size, isUnsigned)) :
    (fn.insn index).op = .cast ∧ (fn.insn index).lhs.kind = .temp ∧ (fn.insn index).lhs.name = some t ∧
      uses t = 1 ∧ (fn.insn index).text.bind integerCastWidth = some (size, isUnsigned) := by
  simp only [castOfTemp, bind_eq_bind, bind_eq_some_iff, guard_eq_some',
    exists_const] at h
  obtain ⟨t', hname, ⟨hop, -, hkind, huses⟩, ⟨size', u'⟩, ⟨type, htext, htype⟩, heq⟩ := h
  obtain ⟨rfl, rfl, rfl⟩ : t' = t ∧ size' = size ∧ u' = isUnsigned := by simpa using heq
  exact ⟨hop, hkind, hname, huses, by rw [htext, bind_some, ← builtinIntegerTypeInfo_eq, htype]⟩

/-- What it asks of two casts. -/
theorem composedCast_spec {uses : String → ℕ} {index k : ℕ} {type : Option String}
    (h : fn.composedCast uses index = some (k, type)) :
    ∃ t s₁ u₁ s₂ u₂, fn.castOfTemp uses index = some (t, s₂, u₂) ∧
      fn.findTempProducer t index = some k ∧ (fn.insn k).op = .cast ∧
      (fn.insn k).text.bind integerCastWidth = some (s₁, u₁) ∧
      type = if s₂ ≤ s₁ then (fn.insn index).text else (fn.insn k).text := by
  simp only [composedCast, bind_eq_bind, bind_eq_some_iff, guard_eq_some',
    exists_const] at h
  obtain ⟨⟨t, s₂, u₂⟩, hcast, k', hfind, ⟨hop, -⟩, ⟨s₁, u₁⟩, ⟨type₁, htext, htype⟩, -, heq⟩ := h
  obtain ⟨rfl, rfl⟩ := heq
  exact ⟨t, s₁, u₁, s₂, u₂, hcast, hfind, hop,
    by rw [htext, bind_some, ← builtinIntegerTypeInfo_eq, htype], rfl⟩

/-- What it asks of a load and the cast behind it. -/
theorem absorbingLoad_spec {uses : String → ℕ} {index k : ℕ} (h : fn.absorbingLoad uses index = some k) :
    ∃ t size, fn.castOfTemp uses index = some (t, size, true) ∧ fn.findTempProducer t index = some k ∧
      size ≤ 2 ∧ (fn.insn k).op = .load ∧ (fn.insn k).isFloat = false ∧ (fn.insn k).rhs.kind = .int ∧
      (fn.insn k).rhs.intValue = BitVec.ofNat 64 size := by
  simp only [absorbingLoad, bind_eq_bind, bind_eq_some_iff, guard_eq_some',
    exists_const] at h
  obtain ⟨⟨t, size, u⟩, hcast, ⟨hu, hsize⟩, k', hfind, ⟨hop, hfloat, hkind, hvalue⟩, heq⟩ := h
  cases heq
  subst hu
  exact ⟨t, size, hcast, hfind, hsize, hop, hfloat, hkind, hvalue⟩

end Function

/-- A temporary that an assignment or a cast reads is counted there. -/
theorem Inst.mem_tempUses {i : Inst} {t : String} (hop : i.op = .assign ∨ i.op = .cast)
    (hk : i.lhs.kind = .temp) (hn : i.lhs.name = some t) : t ∈ i.tempUses := by
  rcases hop with hop | hop <;>
    simp [tempUses, hop, hk, hn, Opcode.readsSideOperands, Opcode.readsDestination]

namespace Coalesced

variable {uses : String → ℕ} {s : State W} {start : Function} (h : Coalesced H uses s start fn)

include h

/-- Forwarding a producer to the destination of its copy keeps the runs. -/
theorem forward {p i : ℕ} {t : String} (hforward : Forwardable H fn p i t) (hliteral : fn.LiteralKept p i s) :
    Coalesced H uses s start (fn.forward p i) where
  inv := h.inv.forward hforward.lt hforward.bound hforward.single
  entry := h.entry
  preserves := by
    refine h.preserves.trans (hforward.preserves ⟨hforward.temp.shape_entry h.entry, hliteral⟩) fun pc hop => ?_
    rw [Function.forward_insn hforward.lt hforward.bound] at hop
    split_ifs at hop with hi hp
    · exact absurd rfl hop
    · rw [hp]
      exact hop
    · exact hop

/-- So does composing two casts. -/
theorem compose {p i : ℕ} {t : String} {type : Option String} {s₁ s₂ : ℕ} {u₁ u₂ : Bool}
    (hlaw : H.Confined escapes) (hcompose : Composable escapes fn p i t type s₁ s₂ u₁ u₂)
    (hfloat : ∀ n s', stepN H fn n (.at 0 s) = some (.at p s') →
      ∀ a, s'.fetch H (fn.insn p).lhs = some a → a.isFloat = false) :
    Coalesced H uses s start (fn.compose p i type) where
  inv := h.inv.compose hcompose.lt hcompose.bound hcompose.inner hcompose.outer
  entry := h.entry
  preserves := by
    refine h.preserves.trans (hcompose.preserves hlaw (hcompose.temp.shape_entry h.entry) hfloat) fun pc hop => ?_
    rw [Function.compose_insn hcompose.lt hcompose.bound] at hop
    split_ifs at hop with hp hi
    · exact absurd rfl hop
    · rw [hi]
      exact hop
    · exact hop

variable {index : ℕ} (hindex : index < start.instructions.length)

include hindex

/-- So does what the pass does at a copy. -/
theorem coalesceAssignAt (hsafe : fn.ForwardSafe uses s index) :
    Coalesced H uses s start (fn.coalesceAssignAt uses index) := by
  unfold Function.coalesceAssignAt
  cases hproducer : fn.assignProducer uses index with
  | none => exact h
  | some k =>
    obtain ⟨hsingle, hliteral⟩ := hsafe k hproducer
    obtain ⟨t, hop, hkind, hname, huses, hlast, hdest, hdestName⟩ := Function.assignProducer_spec hproducer
    obtain ⟨hk, hnop⟩ := Function.lastBefore_spec hlast
    have hi : index < fn.instructions.length := by
      rw [h.inv.length]
      exact hindex
    have htemp : fn.OnlyTemp t := h.inv.onlyTemp_lhs hkind hname
    have hforward : Forwardable H fn k index t := {
      lt := hk
      bound := hi
      single := hsingle
      dest_kind := hdest
      dest_name := hdestName
      consumer := Or.inl hop
      lhs_kind := hkind
      lhs_name := hname
      value := fun s v w _ s' hfetch => by
        simp [State.result, State.effect, hop, State.assigned, hkind, hfetch]
      only := fun j hj => h.inv.only hi huses (Inst.mem_tempUses (Or.inl hop) hkind hname) htemp hj
      temp := htemp
      between := fun m hkm hmi => Or.inl (hnop m hkm hmi) }
    exact h.forward hforward hliteral

/-- So does what it does at two casts. -/
theorem composeCastAt (hlaw : H.Confined escapes) (hsafe : fn.ComposeSafe H escapes uses s index) :
    Coalesced H uses s start (fn.composeCastAt uses index) := by
  unfold Function.composeCastAt
  cases hcomposed : fn.composedCast uses index with
  | none => exact h
  | some r =>
    obtain ⟨k, type⟩ := r
    -- what the condition says of this site
    obtain ⟨hsign, hbetween, hfloat⟩ := hsafe k type hcomposed
    obtain ⟨t, s₁, u₁, s₂, u₂, hcast, hfind, hinner, htype, htypeEq⟩ := Function.composedCast_spec hcomposed
    obtain ⟨hop, hkind, hname, huses, hwidth⟩ := Function.castOfTemp_spec hcast
    obtain ⟨hk, hdest, hdestName, hlabel⟩ := Function.findTempProducer_spec hfind
    have hi : index < fn.instructions.length := by
      rw [h.inv.length]
      exact hindex
    have htemp : fn.OnlyTemp t := h.inv.onlyTemp_lhs hkind hname
    have hinfo : builtinIntegerTypeInfo = integerCastWidth := funext builtinIntegerTypeInfo_eq
    rw [hinfo] at hsign
    -- the site is one that a composition may be made at
    have hcompose : Composable escapes fn k index t type s₁ s₂ u₁ u₂ := {
      lt := hk
      bound := hi
      inner := hinner
      inner_type := htype
      outer := hop
      outer_type := hwidth
      type_eq := htypeEq
      dest_kind := hdest
      dest_name := hdestName
      lhs_kind := hkind
      lhs_name := hname
      only := fun j hj => h.inv.only hi huses (Inst.mem_tempUses (Or.inr hop) hkind hname) htemp hj
      temp := htemp
      sign := hsign s₁ u₁ s₂ u₂ htype hwidth
      unlabelled := hlabel
      between := fun m hkm hmi => by
        obtain ⟨hsource, hdestKept⟩ := hbetween m hkm hmi
        refine ⟨?_, hsource⟩
        have := (Bool.and_eq_true_iff.mp hdestKept).1
        simpa [Operand.var, hdest, hdestName] using this }
    exact h.compose hlaw hcompose hfloat

/-- So does what it does at a load and a cast. -/
theorem absorbCastAt (hload : H.ZeroExtends) (hsafe : fn.AbsorbSafe uses index) :
    Coalesced H uses s start (fn.absorbCastAt uses index) := by
  unfold Function.absorbCastAt
  cases habsorb : fn.absorbingLoad uses index with
  | none => exact h
  | some k =>
    obtain ⟨t, size, hcast, hfind, hsize, hload', hfloat, hrhs, hrhsValue⟩ :=
      Function.absorbingLoad_spec habsorb
    obtain ⟨hop, hkind, hname, huses, hwidth⟩ := Function.castOfTemp_spec hcast
    obtain ⟨hk, hdest, hdestName, hlabel⟩ := Function.findTempProducer_spec hfind
    obtain ⟨hunsigned, hearly⟩ := hsafe k t habsorb hname
    have hi : index < fn.instructions.length := by
      rw [h.inv.length]
      exact hindex
    have htemp : fn.OnlyTemp t := h.inv.onlyTemp_lhs hkind hname
    have hforward : Forwardable H fn k index t := {
      lt := hk
      bound := hi
      single := Or.inl (by rw [hload']; rfl)
      dest_kind := hdest
      dest_name := hdestName
      consumer := Or.inr hop
      lhs_kind := hkind
      lhs_name := hname
      value := fun s v w heffect s' hfetch => by
        -- the load has extended its bytes already
        simp only [State.effect, hload', State.fetchInt, State.fetch, hrhs, hrhsValue, map_some,
          bind_eq_bind, bind_some, bind_eq_some_iff, some.injEq,
          Prod.mk.injEq, List.cons.injEq, and_true] at heffect
        obtain ⟨address, -, v', hv', rfl, -⟩ := heffect
        obtain ⟨x, u, rfl, hx⟩ := hload _ _ _ _ _ hv' hfloat hunsigned
        have hbytes : (H.floats.asInt (.ofInt (BitVec.ofNat 64 size))).toNat = size := by
          simp only [FloatOps.asInt, Value.ofInt, Bool.false_eq_true, if_false, BitVec.toNat_ofNat]
          omega
        rw [hbytes] at hx
        rw [State.result_cast hop hwidth hfetch rfl]
        simp only [castValue, Value.ofInt, hx]
      only := fun j hj => h.inv.only hi huses (Inst.mem_tempUses (Or.inr hop) hkind hname) htemp hj
      temp := htemp
      between := hearly }
    exact h.forward hforward fun hassign => by rw [hload'] at hassign; cases hassign

end Coalesced

/-- The conditions that the pass leaves to its callers, each rewrite on the function as it is before that
rewrite. -/
structure Function.CoalesceSafe (H : Host W) (escapes : String → Bool) (fn : Function) (s : State W) : Prop where
  counted : fn.countsReads = true
  separate : fn.Separate
  forward : Lib.Along (Function.coalesceAssignAt fn.tempUseCount) (Function.ForwardSafe fn.tempUseCount s)
    fn fn.indices
  compose : Lib.Along (Function.composeCastAt fn.tempUseCount)
    (Function.ComposeSafe H escapes fn.tempUseCount s)
    (fn.indices.foldl (Function.coalesceAssignAt fn.tempUseCount) fn) fn.indices
  absorb : Lib.Along (Function.absorbCastAt fn.tempUseCount) (Function.AbsorbSafe fn.tempUseCount)
    (fn.indices.foldl (Function.composeCastAt fn.tempUseCount)
      (fn.indices.foldl (Function.coalesceAssignAt fn.tempUseCount) fn)) fn.indices

/-- Coalescing keeps every value that a remaining instruction reads. -/
theorem Function.coalescePass_preserves (hlaw : H.Confined escapes) (hload : H.ZeroExtends) {s : State W}
    (hs : fn.Entry s) (hsafe : fn.CoalesceSafe H escapes s) : fn.Preserves H fn.coalescePass s := by
  have hbound : ∀ index ∈ fn.indices, index < fn.instructions.length := by
    intro index hindex
    exact List.mem_range.mp (List.mem_of_mem_drop hindex)
  have hstart : Coalesced H fn.tempUseCount s fn fn := {
    inv := ⟨rfl, insn_countsReads hsafe.counted, fun t => le_refl _, hsafe.separate⟩
    entry := hs
    preserves := Function.Preserves.refl H fn s }
  have hforward := Lib.Along.foldl hsafe.forward hstart
    fun mid index hindex hmid => hmid.coalesceAssignAt (hbound index hindex)
  have hcompose := Lib.Along.foldl hsafe.compose hforward
    fun mid index hindex hmid => hmid.composeCastAt (hbound index hindex) hlaw
  have habsorb := Lib.Along.foldl hsafe.absorb hcompose
    fun mid index hindex hmid => hmid.absorbCastAt (hbound index hindex) hload
  exact habsorb.preserves

namespace Function

/-- A function without labels does not come back. -/
theorem stepN_forward (hlabel : ∀ i ∈ fn.instructions, i.op ≠ .label) {n pc pc' : ℕ} {s s' : State W}
    (h : stepN H fn n (.at pc s) = some (.at pc' s')) : pc' = pc + n := by
  induction n generalizing pc s with
  | zero =>
    cases h
    rfl
  | succ n ih =>
    rw [stepN, bind_eq_some_iff] at h
    obtain ⟨c, hstep, hrest⟩ := h
    cases c with
    | returned v s₁ =>
      have hstays : stepN H fn n (.returned v s₁) = some (.returned v s₁) := by
        clear hrest ih
        induction n with
        | zero => rfl
        | succ n ih => rw [stepN, step, bind_some, ih]
      rw [hstays] at hrest
      cases hrest
    | «at» pc₁ s₁ =>
      obtain ⟨hpc, ⟨-, hfind, -⟩ | ⟨-, rfl, -⟩ | ⟨-, rfl, -⟩⟩ := step_cases hstep
      · obtain ⟨hlen, hop, -⟩ := findLabel_op hfind
        exact absurd hop (hlabel _ (by rw [← getElem_insn fn hlen]; exact List.getElem_mem hlen))
      · rw [ih hrest]
        omega
      · rw [ih hrest]
        omega

/-- A chain of casts whose end is assigned to another temporary. -/
def castChain (inner outer : String) : Function where
  parameterNames := ["x"]
  parameterTypes := [some "int64"]
  instructions := [
    { op := .cast, dest := .ofTemp "t1", lhs := .ofSymbol "x", text := some inner },
    { op := .cast, dest := .ofTemp "t2", lhs := .ofTemp "t1", text := some outer },
    { op := .assign, dest := .ofTemp "t3", lhs := .ofTemp "t2" },
    { op := .return, lhs := .ofTemp "t3" }]

/-- The parameter is all ones. -/
def minusOne : State Unit where
  env := fun name => if name = "x" then some { value := .ofInt (-1), size := 8 } else none
  world := ()

theorem castChain_entry (inner outer : String) : (castChain inner outer).Entry minusOne := by
  intro x var hvar
  simp only [minusOne] at hvar
  split at hvar
  · rename_i hx
    cases hvar
    exact ⟨0, by rw [hx]; rfl, by rw [show (castChain inner outer).parameterWidth 0 = (8, false) from rfl]⟩
  · cases hvar

/-- The temporaries of the example are separate from its symbols. -/
theorem castChain_separate (inner outer : String) : (castChain inner outer).Separate :=
  separate_of_names (by simp [castChain, Inst.operands, Operand.ofTemp, Operand.ofSymbol])

/-- An unsigned byte is widened: the chain becomes one cast. -/
theorem coalescePass_preserves_castChain :
    ((castChain "uint8" "int32").coalescePass.insn 0).op = .nop ∧
      ((castChain "uint8" "int32").coalescePass.insn 2).op = .nop ∧
      (castChain "uint8" "int32").Preserves Host.scalars (castChain "uint8" "int32").coalescePass minusOne := by
  refine ⟨by decide, by decide, coalescePass_preserves
    (Host.scalars_confined fun _ => false) (fun _ _ _ _ _ h => by cases h) (castChain_entry _ _) ?_⟩
  exact {
    counted := by decide
    separate := castChain_separate _ _
    forward := by
      refine ⟨fun k hk => ?_, fun k hk => ?_, fun k hk => ?_, trivial⟩
      · rw [show assignProducer _ _ 1 = none by decide] at hk
        cases hk
      · rw [show assignProducer _ _ 2 = some 1 by decide] at hk
        obtain rfl := Option.some.inj hk
        exact ⟨Or.inl (by decide), fun hop => absurd hop (by decide)⟩
      · rw [show assignProducer _ _ 3 = none by decide] at hk
        cases hk
    compose := by
      refine ⟨fun k type hk => ?_, fun k type hk => ?_, fun k type hk => ?_, trivial⟩
      · rw [show composedCast _ _ 1 = some (0, some "uint8") by decide] at hk
        cases hk
        refine ⟨fun s₁ u₁ s₂ u₂ h₁ h₂ => ?_, fun m hm hm' => absurd (show m < 1 from hm') (by omega),
          fun n s' hrun a ha => ?_⟩
        · rw [show Option.bind _ _ = some (1, true) by decide] at h₁
          rw [show Option.bind _ _ = some (4, false) by decide] at h₂
          cases h₁
          cases h₂
          rfl
        · obtain rfl : n = 0 := by
            have := stepN_forward (by decide) hrun
            omega
          cases hrun
          rw [show State.fetch _ _ _ = some (.ofInt (-1)) by decide] at ha
          cases ha
          rfl
      · rw [show composedCast _ _ 2 = none by decide] at hk
        cases hk
      · rw [show composedCast _ _ 3 = none by decide] at hk
        cases hk
    absorb := by
      refine ⟨fun k t hk => ?_, fun k t hk => ?_, fun k t hk => ?_, trivial⟩
      · rw [show absorbingLoad _ _ 1 = none by decide] at hk
        cases hk
      · rw [show absorbingLoad _ _ 2 = none by decide] at hk
        cases hk
      · rw [show absorbingLoad _ _ 3 = none by decide] at hk
        cases hk }

/-- A negative byte is widened to `uint16`: composed, the chain gives `-1` for `65535`. -/
theorem coalescePass_loses_sign : ¬ ∀ (fn : Function) (s : State Unit), fn.countsReads = true →
    fn.Separate → fn.Entry s → fn.Preserves Host.scalars fn.coalescePass s := by
  intro h
  have hrun := ((h (castChain "int8" "uint16") minusOne (by decide) (castChain_separate _ _)
    (castChain_entry _ _)) 4).2
  have hbefore : (stepN Host.scalars (castChain "int8" "uint16") 4 (.at 0 minusOne)).bind Config.value =
      some (.ofInt 65535) := by decide
  have hafter : (stepN Host.scalars (castChain "int8" "uint16").coalescePass 4 (.at 0 minusOne)).bind
      Config.value = some (.ofInt (-1)) := by decide
  obtain ⟨c, hc, hvalue⟩ := Option.bind_eq_some_iff.mp hbefore
  cases c with
  | «at» pc s => cases hvalue
  | returned v s =>
    obtain rfl := Option.some.inj hvalue
    obtain ⟨s', hc', -⟩ := hrun _ s hc
    rw [hc', Option.bind_some, Config.value] at hafter
    exact absurd hafter (by decide)

end Function

end Mettle.Ir

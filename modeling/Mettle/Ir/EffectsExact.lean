import Mettle.Ir.EffectsScan

/-!
# What the effect analysis computes

The performed effects of a function are exactly the sources that direct calls reach
(`Ctx.mem_performs`). Its needs are those that call sites carry to it, except that a divergent site is
not looked at when it is an indirect call or when an earlier call of the same function is not divergent:
`propagate` asks only the recorded site of a callee, and no site of an indirect call, whether it is
divergent.
-/

open List Option

namespace Mettle.Ir.Effects

variable {P : Program} (index : NameIndex P)

/-! ## Calls -/

/-- The instruction at a site of a function calls another function directly. -/
def CallsAt (i site g : ℕ) : Prop := calleeAt index (P.functions.getD i {}).instructions site = some g

/-- A function calls another one directly. -/
def Calls (i g : ℕ) : Prop := ∃ site, CallsAt index i site g

/-- The instruction at a site of a function is an indirect call that requires the effect. -/
def IndirectAt (P : Program) (input : EffectInput) (i site e : ℕ) : Prop :=
  ∃ requires, (P.functions.getD i {}).instructions[site]?.bind (indirectRequires input) = some requires ∧
    e ∈ requires

variable {index}

/-- A defined callee is a function of the program. -/
theorem definedCallee_lt {name : String} {g : ℕ} (h : P.definedCallee index name = some g) :
    g < P.functions.length := by
  rw [Program.definedCallee] at h
  split at h
  · rename_i j hj
    split at h
    · cases h
      obtain ⟨fn, hfn, -⟩ := index.sound hj
      exact (List.getElem?_eq_some_iff.mp hfn).1
    · cases h
  · cases h

/-- What is called is a function of the program. -/
theorem CallsAt.callee_lt {i site g : ℕ} (h : CallsAt index i site g) : g < P.functions.length := by
  rw [CallsAt, calleeAt, bind_eq_some_iff] at h
  obtain ⟨insn, -, hcallee⟩ := h
  rw [directCallee] at hcallee
  split at hcallee
  · rw [bind_eq_some_iff] at hcallee
    obtain ⟨name, -, hcallee⟩ := hcallee
    split at hcallee
    · cases hcallee
    · exact definedCallee_lt hcallee
  · cases hcallee

/-- A site is not direct and indirect at once. -/
theorem CallsAt.not_indirect {input : EffectInput} {i site g e : ℕ} (h : CallsAt index i site g)
    (hat : IndirectAt P input i site e) : False := by
  obtain ⟨requires, hrequires, -⟩ := hat
  rw [CallsAt, calleeAt, bind_eq_some_iff] at h
  obtain ⟨insn, hinsn, hcallee⟩ := h
  rw [hinsn, bind_some, indirectRequires] at hrequires
  rw [directCallee] at hcallee
  split at hcallee
  · rename_i hop
    rw [if_neg (by rw [hop]; decide)] at hrequires
    cases hrequires
  · cases hcallee

/-- A callee has one first call. -/
theorem FirstCall.unique {insns : List EInst} {k k' g : ℕ} (h : FirstCall index insns k g)
    (h' : FirstCall index insns k' g) : k = k' := by
  rcases Nat.lt_trichotomy k k' with hlt | heq | hlt
  · exact absurd h.1 (h'.2 k hlt)
  · exact heq
  · exact absurd h'.1 (h.2 k' hlt)

namespace Ctx

variable (ctx : Ctx) (index)

/-- The function provides the effect to the call at the site: a divergent call takes group effects away. -/
def Provided (i site e : ℕ) : Prop :=
  e ∈ (ctx.efn i).provides ∧ ¬ (e ∈ ctx.input.groupMask ∧ ctx.divergentAt i site)

/-- There is a call path over allowed sites to a function or an indirect call that requires the effect, and
no function on the way provides it. -/
inductive Needs (allowed : ℕ → ℕ → ℕ → Prop) : ℕ → ℕ → Prop
  | requires {i e : ℕ} : e ∈ (ctx.efn i).requires → Needs allowed i e
  | indirect {i site e : ℕ} : IndirectAt P ctx.input i site e → ¬ ctx.Provided i site e →
      allowed i site e → Needs allowed i e
  | call {i site g e : ℕ} : CallsAt index i site g → ¬ ctx.Provided i site e → allowed i site e →
      Needs allowed g e → Needs allowed i e

/-- The divergent site at which the function does not provide the group effect, but is taken to: it is an
indirect call, or the first call of the same function is not divergent. -/
def Hidden (i site e : ℕ) : Prop :=
  e ∈ ctx.input.groupMask ∧ e ∈ (ctx.efn i).provides ∧ ctx.divergentAt i site ∧
    (IndirectAt P ctx.input i site e ∨ ∃ g first, CallsAt index i site g ∧
      FirstCall index (P.functions.getD i {}).instructions first g ∧ ¬ ctx.divergentAt i first)

/-- What the scans establish about a context. -/
structure Built : Prop where
  program : ctx.program = P
  bounded : ∀ i, (ctx.efn i).Bounded ctx.input
  records : ∀ i, (ctx.efn i).Records index ctx.input (P.functions.getD i {}).instructions

/-- The performed effects flow from the callees. -/
def performsFlow : Lib.Gather ℕ ℕ where
  seed i := (ctx.efn i).sources
  own _ := ∅
  edges i := ((ctx.efn i).callees.map (·.1)).map fun c => (c, ∅)

/-- The needs flow from the callees, less what the function provides at the recorded site. -/
def needsFlow : Lib.Gather ℕ ℕ where
  seed _ := ∅
  own i := (ctx.efn i).indirect.foldl (fun bits k => bits ∪ (k.2 \ (ctx.efn i).provides)) (ctx.efn i).requires
  edges i := (ctx.efn i).callees.map fun c => (c.1, ctx.reaching i c.2)

end Ctx

/-- The tables that are built record what the functions do. -/
theorem effectsBuild_built {ctx : Ctx} {input : EffectInput} (h : effectsBuild P index input = some ctx) :
    ctx.Built index := by
  obtain ⟨fns, hfns, rfl⟩ := map_eq_some_iff.mp h
  have hmap := Lib.map_of_mapM hfns
  have hspec : ∀ i, (fns.getD i {}).Bounded input ∧
      (fns.getD i {}).Records index input (P.functions.getD i {}).instructions := by
    intro i
    have hi := congrArg (fun l => l[i]?) hmap
    simp only [List.getElem?_map] at hi
    rw [getD_eq_getElem?_getD, getD_eq_getElem?_getD]
    cases hfn : P.functions[i]? with
    | none =>
      rw [hfn, map_none, eq_comm, map_eq_none_iff] at hi
      rw [hi]
      exact ⟨⟨Finset.empty_subset _, Finset.empty_subset _, Finset.empty_subset _, nofun⟩,
        fun callee k => by simp [FirstCall, calleeAt], fun k requires => by simp⟩
    | some fn =>
      rw [hfn, map_some, eq_comm, map_eq_some_iff] at hi
      obtain ⟨efn, hefn, hscan⟩ := hi
      rw [hefn]
      exact scanFunction_spec hscan.symm
  exact ⟨rfl, fun i => (hspec i).1, fun i => (hspec i).2⟩

namespace Ctx

variable {ctx : Ctx} {input : EffectInput}

/-- The rounds for what is performed visit a data-flow problem. -/
theorem performsVisit_eq : ctx.performsVisit = ctx.performsFlow.visit := by
  funext performs i
  exact Lib.Gather.sweep_eq_visit rfl rfl performs

theorem needsVisit_eq : ctx.needsVisit = ctx.needsFlow.visit := by
  funext needs i
  have hgathered : ctx.gathered needs i = ctx.needsFlow.inflow needs i := by
    ext e
    rw [gathered, Lib.mem_foldl_union, Lib.mem_foldl_union, Lib.Gather.mem_inflow, needsFlow,
      Lib.mem_foldl_union, or_right_comm]
    simp
  rw [needsVisit, Lib.Gather.visit, hgathered]

/-! ## Performed effects -/

variable {i e : ℕ} {allowed : ℕ → ℕ → ℕ → Prop}

/-- The recorded callees are those called. -/
theorem Built.mem_callees (hctx : ctx.Built index) {g : ℕ} : g ∈ (ctx.efn i).callees.map (·.1) ↔ Calls index i g := by
  rw [List.mem_map]
  constructor
  · rintro ⟨⟨g, site⟩, hmem, rfl⟩
    exact ⟨site, ((hctx.records i).callees g site).mp hmem |>.1⟩
  · rintro ⟨site, hcall⟩
    obtain ⟨first, -, hfirst⟩ := FirstCall.exists_of_calleeAt hcall
    exact ⟨(g, first), ((hctx.records i).callees g first).mpr hfirst, rfl⟩

/-- They are functions of the program. -/
theorem Built.callee_lt (hctx : ctx.Built index) {c : ℕ × ℕ} (hc : c ∈ (ctx.efn i).callees) : c.1 < ctx.fnCount := by
  have hfirst := ((hctx.records i).callees c.1 c.2).mp hc
  rw [fnCount, hctx.program]
  exact CallsAt.callee_lt hfirst.1

/-- What the flow carries to a function are the sources of what it reaches. -/
theorem Built.performsFlow_carries (hctx : ctx.Built index) :
    ctx.performsFlow.Carries i e ↔
      ∃ g, Relation.ReflTransGen (Calls index) i g ∧ e ∈ (ctx.efn g).sources := by
  constructor
  · intro h
    induction h with
    | @seed i e he => exact ⟨i, .refl, he⟩
    | own he => exact absurd he (Finset.notMem_empty _)
    | edge hedge _ _ ih =>
      obtain ⟨c, hc, rfl⟩ := List.mem_map.mp hedge
      obtain ⟨g, hg, he⟩ := ih
      exact ⟨g, .head (hctx.mem_callees.mp hc) hg, he⟩
  · rintro ⟨g, hg, he⟩
    induction hg using Relation.ReflTransGen.head_induction_on with
    | refl => exact .seed he
    | head hcall _ ih =>
      exact .edge (List.mem_map.mpr ⟨_, hctx.mem_callees.mpr hcall, rfl⟩) (Finset.notMem_empty _) ih

/-- What a function performs are the sources that direct calls reach from it. -/
theorem Built.mem_performs (hctx : ctx.Built index) {performs : ℕ → Finset ℕ} (h : ctx.performs = some performs)
    (hi : i < ctx.fnCount) (e : ℕ) :
    e ∈ performs i ↔ ∃ g, Relation.ReflTransGen (Calls index) i g ∧ e ∈ (ctx.efn g).sources := by
  rw [Ctx.performs, performsVisit_eq] at h
  rw [← hctx.performsFlow_carries]
  refine Lib.Gather.solve_spec (fun j _ edge hedge => ?_) h (mem_range.mpr hi) e
  obtain ⟨c, hc, rfl⟩ := List.mem_map.mp hedge
  obtain ⟨callee, hcallee, rfl⟩ := List.mem_map.mp hc
  exact mem_range.mpr (hctx.callee_lt hcallee)

/-! ## Needs -/

/-- What reaches a site from around it is what is provided there. -/
theorem mem_reaching {site : ℕ} : e ∈ ctx.reaching i site ↔ ctx.Provided i site e := by
  rw [reaching, Provided]
  split
  · rename_i hdivergent
    simp [hdivergent]
  · rename_i hdivergent
    simp [hdivergent]

/-- The own needs of a function: its clause, and the indirect calls whose needs it does not provide. -/
theorem Built.needsFlow_own (hctx : ctx.Built index) :
    e ∈ ctx.needsFlow.own i ↔ e ∈ (ctx.efn i).requires ∨
      ∃ site, IndirectAt P ctx.input i site e ∧ e ∉ (ctx.efn i).provides := by
  rw [needsFlow, Lib.mem_foldl_union]
  refine or_congr_right ⟨?_, ?_⟩
  · rintro ⟨⟨site, requires⟩, hmem, he⟩
    rw [Finset.mem_sdiff] at he
    exact ⟨site, ⟨requires, ((hctx.records i).indirect site requires).mp hmem, he.1⟩, he.2⟩
  · rintro ⟨site, ⟨requires, hat, he⟩, hno⟩
    exact ⟨(site, requires), ((hctx.records i).indirect site requires).mpr hat,
      Finset.mem_sdiff.mpr ⟨he, hno⟩⟩

/-- The needs that flow over the recorded sites are those of the sites that are not hidden. -/
theorem Built.needsFlow_carries (hctx : ctx.Built index) :
    ctx.needsFlow.Carries i e ↔ ctx.Needs index (fun i site e => ¬ ctx.Hidden index i site e) i e := by
  constructor
  · intro h
    induction h with
    | seed he => exact absurd he (Finset.notMem_empty _)
    | own he =>
      rcases hctx.needsFlow_own.mp he with hrequires | ⟨site, hat, hno⟩
      · exact .requires hrequires
      · exact .indirect hat (fun hp => hno hp.1) fun hh => hno hh.2.1
    | @edge i e edge hedge hheld _ ih =>
      obtain ⟨c, hc, rfl⟩ := List.mem_map.mp hedge
      have hfirst := ((hctx.records i).callees c.1 c.2).mp hc
      rw [mem_reaching] at hheld
      refine .call hfirst.1 hheld ?_ ih
      -- the recorded site is the first one
      rintro ⟨-, -, hdivergent, hat | ⟨g, first, hcall, hg, hnot⟩⟩
      · exact CallsAt.not_indirect hfirst.1 hat
      · obtain rfl : c.1 = g := some.inj (hfirst.1.symm.trans hcall)
        rw [hfirst.unique hg] at hdivergent
        exact hnot hdivergent
  · intro h
    induction h with
    | requires he => exact .own (hctx.needsFlow_own.mpr (.inl he))
    | indirect hat hno hallowed =>
      refine .own (hctx.needsFlow_own.mpr (.inr ⟨_, hat, fun hp => hno ⟨hp, fun hg => ?_⟩⟩))
      exact hallowed ⟨hg.1, hp, hg.2, .inl hat⟩
    | @call i site g e hcall hno hallowed _ ih =>
      obtain ⟨first, -, hfirst⟩ := FirstCall.exists_of_calleeAt hcall
      have hmem := ((hctx.records i).callees g first).mpr hfirst
      refine .edge (List.mem_map.mpr ⟨_, hmem, rfl⟩) (fun hheld => ?_) ih
      obtain ⟨hp, hgroup⟩ := mem_reaching.mp hheld
      refine hno ⟨hp, fun hg => hallowed ⟨hg.1, hp, hg.2, .inr ⟨g, first, hcall, hfirst, fun hd => ?_⟩⟩⟩
      exact hgroup ⟨hg.1, hd⟩

/-- The needs that the analysis computes are those of the sites that are not hidden. -/
theorem Built.mem_needs (hctx : ctx.Built index) {needs : ℕ → Finset ℕ} (h : ctx.needs = some needs)
    (hi : i < ctx.fnCount) (e : ℕ) :
    e ∈ needs i ↔ ctx.Needs index (fun i site e => ¬ ctx.Hidden index i site e) i e := by
  rw [Ctx.needs, needsVisit_eq] at h
  rw [← hctx.needsFlow_carries]
  refine Lib.Gather.solve_spec (fun j _ edge hedge => ?_) h (mem_range.mpr hi) e
  obtain ⟨c, hc, rfl⟩ := List.mem_map.mp hedge
  exact mem_range.mpr (hctx.callee_lt hc)

/-- With more sites allowed there is at least as much needed. -/
theorem Needs.mono {allowed' : ℕ → ℕ → ℕ → Prop} (h : ctx.Needs index allowed i e)
    (hsub : ∀ i site e, allowed i site e → allowed' i site e) : ctx.Needs index allowed' i e := by
  induction h with
  | requires he => exact .requires he
  | indirect hat hno hallowed => exact .indirect hat hno (hsub _ _ _ hallowed)
  | call hcall hno hallowed _ ih => exact .call hcall hno (hsub _ _ _ hallowed) ih

/-- Needs are bits of the tables. -/
theorem Built.needs_lt (hctx : ctx.Built index) (h : ctx.Needs index allowed i e) : e < ctx.input.bitCount := by
  induction h with
  | @requires i e he => exact Finset.mem_range.mp ((hctx.bounded i).requires he)
  | @indirect i site e hat =>
    obtain ⟨requires, hrequires, he⟩ := hat
    exact Finset.mem_range.mp
      ((hctx.bounded i).indirect _ (((hctx.records i).indirect site requires).mpr hrequires) he)
  | call _ _ _ _ ih => exact ih

/-- The loops of `propagate` stop. -/
theorem Built.propagate_stops (hctx : ctx.Built index) :
    (∃ performs, ctx.performs = some performs) ∧ ∃ needs, ctx.needs = some needs := by
  have hrounds : (range ctx.fnCount).toFinset.card * (Finset.range ctx.input.bitCount).card <
      ctx.rounds := by
    rw [toFinset_range, Finset.card_range, Finset.card_range]
    exact Nat.lt_succ_self _
  rw [Ctx.performs, Ctx.needs, performsVisit_eq, needsVisit_eq]
  refine ⟨Lib.Gather.solve_stops (fun i => (hctx.bounded i).sources) (fun _ => Finset.empty_subset _) hrounds,
    Lib.Gather.solve_stops (fun _ => Finset.empty_subset _) (fun i e he => ?_) hrounds⟩
  rcases hctx.needsFlow_own.mp he with hrequires | ⟨site, hat, hno⟩
  · exact (hctx.bounded i).requires hrequires
  · have hneeds : ctx.Needs index (fun _ _ _ => True) i e := .indirect hat (fun hp => hno hp.1) trivial
    exact Finset.mem_range.mpr (hctx.needs_lt hneeds)

end Ctx

/-! ## The analysis -/

/-- What a completed analysis consists of. -/
theorem effectsAnalyze_spec {trust : Bool} {input : EffectInput} {a : Analysis}
    (h : effectsAnalyze trust P index input = some a) :
    a.ctx.Built index ∧ a.ctx.performs = some a.performs ∧ a.ctx.needs = some a.needs ∧
      (trust = false → a.findings = a.ctx.checkForbids a.performs ++ a.ctx.checkRoots a.needs) := by
  simp only [effectsAnalyze, bind_eq_bind, bind_eq_some_iff, Option.pure_def,
    some.injEq] at h
  obtain ⟨ctx, hctx, performs, hperforms, needs, hneeds, rfl⟩ := h
  exact ⟨effectsBuild_built hctx, hperforms, hneeds, fun htrust => by rw [htrust]; rfl⟩

namespace Ctx

variable {ctx : Ctx}

/-- No report about a function means that it performs nothing it forbids, and nothing unknown. -/
theorem checkForbids_eq_nil {performs : ℕ → Finset ℕ} (h : ctx.checkForbids performs = []) {i e : ℕ}
    (hi : i < ctx.fnCount) (hbounded : (ctx.efn i).Bounded ctx.input) (he : e ∈ (ctx.efn i).forbids) :
    e ∉ performs i ∧ ctx.input.unknownBit ∉ performs i := by
  have hnone := flatMap_eq_nil_iff.mp h i (mem_range.mpr hi)
  rw [map_eq_nil_iff, filter_eq_nil_iff] at hnone
  have hunknown : ctx.input.unknownBit ∉ performs i := by
    intro hperforms
    have hlast : ctx.input.unknownBit + 1 = ctx.input.bitCount := rfl
    refine hnone ctx.input.unknownBit (mem_range.mpr (Nat.lt_succ_self _)) (decide_eq_true ⟨?_, hperforms⟩)
    rw [if_pos hlast]
    exact Finset.ne_empty_of_mem he
  refine ⟨fun hperforms => ?_, hunknown⟩
  by_cases hlast : e + 1 = ctx.input.bitCount
  · obtain rfl : e = ctx.input.unknownBit := Nat.succ_injective hlast
    exact hunknown hperforms
  · refine hnone e (mem_range.mpr (Finset.mem_range.mp (hbounded.forbids he)))
      (decide_eq_true ⟨?_, hperforms⟩)
    rw [if_neg hlast]
    exact he

/-- No report about a root means that it needs nothing. -/
theorem checkRoots_eq_nil {needs : ℕ → Finset ℕ} (h : ctx.checkRoots needs = []) {i e : ℕ}
    (hi : i < ctx.fnCount) (hroot : ctx.isRoot i) (he : e < ctx.input.bitCount) : e ∉ needs i := by
  intro hneeds
  have hnone := flatMap_eq_nil_iff.mp h i (mem_filter.mpr ⟨mem_range.mpr hi, hroot⟩)
  rw [map_eq_nil_iff, filter_eq_nil_iff] at hnone
  exact hnone e (mem_range.mpr he) (decide_eq_true hneeds)

end Ctx

/-- The performed effects are the reachable sources and the needs those of all call paths; with the checks on
and nothing found, no function that forbids an effect reaches a source of it or a call of unknown effects, and
no root has a need. -/
structure Analysis.Exact (index : NameIndex P) (trust : Bool) (a : Analysis) : Prop where
  performs : ∀ i < P.functions.length, ∀ e, e ∈ a.performs i ↔
    ∃ g, Relation.ReflTransGen (Calls index) i g ∧ e ∈ (a.ctx.efn g).sources
  needs : ∀ i < P.functions.length, ∀ e, e ∈ a.needs i ↔
    a.ctx.Needs index (fun _ _ _ => True) i e
  forbids : trust = false → a.findings = [] → ∀ i < P.functions.length, ∀ g,
    Relation.ReflTransGen (Calls index) i g → ∀ e ∈ (a.ctx.efn i).forbids,
      e ∉ (a.ctx.efn g).sources ∧ a.ctx.input.unknownBit ∉ (a.ctx.efn g).sources
  roots : trust = false → a.findings = [] → ∀ i < P.functions.length, a.ctx.isRoot i → ∀ e,
    ¬ a.ctx.Needs index (fun _ _ _ => True) i e

/-- Every need that a hidden site carries also comes to the function over sites that are not hidden. -/
def Ctx.HiddenCarried (index : NameIndex P) (ctx : Ctx) : Prop :=
  ∀ i site e, ctx.Hidden index i site e →
    (IndirectAt P ctx.input i site e ∨
      ∃ g, CallsAt index i site g ∧ ctx.Needs index (fun _ _ _ => True) g e) →
    ctx.Needs index (fun i site e => ¬ ctx.Hidden index i site e) i e

variable {i e site : ℕ}

/-- When hidden sites carry nothing of their own, all needs come over the other sites. -/
theorem Ctx.HiddenCarried.needs {ctx : Ctx} (hcarried : ctx.HiddenCarried index)
    (h : ctx.Needs index (fun _ _ _ => True) i e) :
    ctx.Needs index (fun i site e => ¬ ctx.Hidden index i site e) i e := by
  induction h with
  | requires he => exact .requires he
  | @indirect i site e hat hno _ =>
    by_cases hhidden : ctx.Hidden index i site e
    · exact hcarried i site e hhidden (.inl hat)
    · exact .indirect hat hno hhidden
  | @call i site g e hcall hno _ hneeds ih =>
    by_cases hhidden : ctx.Hidden index i site e
    · exact hcarried i site e hhidden (.inr ⟨g, hcall, hneeds⟩)
    · exact .call hcall hno hhidden ih

/-- A hidden site carries the needs of its callee. -/
theorem Ctx.Hidden.needs {ctx : Ctx} (h : ctx.Hidden index i site e)
    (hat : IndirectAt P ctx.input i site e ∨ ∃ g, CallsAt index i site g ∧ ctx.Needs index (fun _ _ _ => True) g e) :
    ctx.Needs index (fun _ _ _ => True) i e := by
  obtain ⟨hgroup, -, hdivergent, -⟩ := h
  have hno : ¬ ctx.Provided i site e := fun hp => hp.2 ⟨hgroup, hdivergent⟩
  rcases hat with hat | ⟨g, hcall, hneeds⟩
  · exact .indirect hat hno trivial
  · exact .call hcall hno trivial hneeds

/-- An indirect call is in a function of the program. -/
theorem IndirectAt.lt {input : EffectInput} (h : IndirectAt P input i site e) : i < P.functions.length := by
  by_contra hi
  obtain ⟨requires, hrequires, -⟩ := h
  rw [getD_eq_default _ _ (Nat.le_of_not_lt hi)] at hrequires
  simp at hrequires

theorem CallsAt.lt {g : ℕ} (h : CallsAt index i site g) : i < P.functions.length := by
  by_contra hi
  rw [CallsAt, getD_eq_default _ _ (Nat.le_of_not_lt hi)] at h
  simp [calleeAt] at h

/-- The analysis is exact if and only if no need comes over hidden sites alone. -/
theorem effectsAnalyze_exact_iff {trust : Bool} {input : EffectInput} {a : Analysis}
    (h : effectsAnalyze trust P index input = some a) :
    a.Exact index trust ↔ a.ctx.HiddenCarried index := by
  obtain ⟨hctx, hperforms, hneeds, hfindings⟩ := effectsAnalyze_spec h
  have hcount : a.ctx.fnCount = P.functions.length := congrArg (fun p => p.functions.length) hctx.program
  constructor
  · intro hexact i site e hhidden hat
    have hi : i < P.functions.length := by
      rcases hat with hat | ⟨g, hcall, -⟩
      · exact hat.lt
      · exact hcall.lt
    rw [← hctx.mem_needs hneeds (hcount ▸ hi), hexact.needs i hi]
    exact hhidden.needs hat
  · intro hcarried
    have hexact : ∀ i < P.functions.length, ∀ e,
        e ∈ a.needs i ↔ a.ctx.Needs index (fun _ _ _ => True) i e := by
      intro i hi e
      rw [hctx.mem_needs hneeds (hcount ▸ hi)]
      exact ⟨fun h => h.mono fun _ _ _ _ => trivial, fun h => hcarried.needs h⟩
    refine ⟨fun i hi => hctx.mem_performs hperforms (hcount ▸ hi), hexact, ?_, ?_⟩
    · intro htrust hnone i hi g hg e he
      rw [hfindings htrust, List.append_eq_nil_iff] at hnone
      have hi' : i < a.ctx.fnCount := hcount ▸ hi
      obtain ⟨hforbid, hunknown⟩ := Ctx.checkForbids_eq_nil hnone.1 hi' (hctx.bounded i) he
      rw [hctx.mem_performs hperforms hi'] at hforbid hunknown
      exact ⟨fun hs => hforbid ⟨g, hg, hs⟩, fun hs => hunknown ⟨g, hg, hs⟩⟩
    · intro htrust hnone i hi hroot e hneed
      rw [hfindings htrust, List.append_eq_nil_iff] at hnone
      exact Ctx.checkRoots_eq_nil hnone.2 (hcount ▸ hi) hroot (hctx.needs_lt hneed) ((hexact i hi e).mpr hneed)

/-- The loops of `propagate` stop in every program, recursion included, and what they leave is the least solution over
the recorded sites: the sources of the functions that are reached, and the needs that no hidden site carries. -/
theorem effectsAnalyze_computes {ctx : Ctx} {input : EffectInput} (h : effectsBuild P index input = some ctx)
    (trust : Bool) : ∃ a, effectsAnalyze trust P index input = some a ∧ ∀ i < ctx.fnCount, ∀ e,
      (e ∈ a.performs i ↔ ∃ g, Relation.ReflTransGen (Calls index) i g ∧ e ∈ (ctx.efn g).sources) ∧
      (e ∈ a.needs i ↔ ctx.Needs index (fun i site e => ¬ ctx.Hidden index i site e) i e) := by
  have hctx := effectsBuild_built h
  obtain ⟨⟨performs, hperforms⟩, needs, hneeds⟩ := hctx.propagate_stops
  refine ⟨⟨ctx, performs, needs, if trust then [] else ctx.checkForbids performs ++ ctx.checkRoots needs⟩, ?_,
    fun i hi e => ⟨hctx.mem_performs hperforms hi e, hctx.mem_needs hneeds hi e⟩⟩
  rw [effectsAnalyze, h, bind_eq_bind, bind_some, hperforms, hneeds]
  rfl

/-- A kernel that provides `Block` calls a function that requires it twice; the arguments say which of the
calls is divergent. -/
def callsTwice (first second : Bool) : Program where
  functions := [
    { name := some "k", isKernel := true, effectsProvides := ["Block"],
      instructions := [{ op := .call, text := some "f", divergentCall := first },
        { op := .call, text := some "f", divergentCall := second }] },
    { name := some "f", effectsRequires := ["Block"], instructions := [{ op := .return }] }]

/-- The table that declares `Block`. -/
def blockInput : EffectInput := { effects := ["Block"] }

/-- The two calls of the example. -/
theorem callsTwice_callsAt (first second : Bool) (site : ℕ) (hsite : site < 2) :
    CallsAt (NameIndex.first (callsTwice first second)) 0 site 1 := by
  rw [CallsAt]
  cases first <;> cases second <;> interval_cases site <;> decide

theorem effectsAnalyze_computes_twice : ∃ a, effectsAnalyze false (callsTwice true false) (NameIndex.first _) blockInput =
    some a ∧ 0 ∈ a.needs 1 := by
  have hbuild : (effectsBuild (callsTwice true false) (NameIndex.first _) blockInput).map
      (fun ctx => (ctx.fnCount, (ctx.efn 1).requires)) = some (2, {0}) := by decide
  obtain ⟨ctx, hctx, hvalue⟩ := Option.map_eq_some_iff.mp hbuild
  obtain ⟨hcount, hrequires⟩ := Prod.mk.inj hvalue
  obtain ⟨a, ha, hexact⟩ := effectsAnalyze_computes hctx false
  refine ⟨a, ha, (hexact 1 (by omega) 0).2.mpr (.requires ?_)⟩
  rw [hrequires]
  decide

/-- The second call is divergent, so the group is not all there and the kernel needs `Block`; only the first
call is asked, and nothing is found. -/
theorem effectsAnalyze_misses_divergent :
    ∃ a, effectsAnalyze false (callsTwice false true) (NameIndex.first _) blockInput = some a ∧
      a.findings = [] ∧ ¬ a.Exact (NameIndex.first (callsTwice false true)) false := by
  have hfindings : (effectsAnalyze false (callsTwice false true) (NameIndex.first _) blockInput).map
      (fun a => (a.findings, decide (0 ∈ a.needs 0), a.ctx.program, a.ctx.input, (a.ctx.efn 1).requires)) =
      some ([], false, callsTwice false true, blockInput, {0}) := by decide
  obtain ⟨a, ha, hvalue⟩ := Option.map_eq_some_iff.mp hfindings
  simp only [Prod.mk.injEq, decide_eq_false_iff_not] at hvalue
  obtain ⟨hnone, hneeds, hprogram, hinput, hrequires⟩ := hvalue
  refine ⟨a, ha, hnone, fun hexact => hneeds ?_⟩
  rw [hexact.needs 0 (by decide)]
  refine .call (callsTwice_callsAt false true 1 (by decide)) (fun hp => hp.2 ⟨?_, ?_⟩) trivial
    (.requires (by rw [hrequires]; decide))
  · rw [hinput]
    decide
  · rw [Ctx.divergentAt, Ctx.fn, hprogram]
    rfl

/-- The first call is divergent and the second is not: the need is found. -/
theorem effectsAnalyze_exact_first_divergent :
    ∃ a, effectsAnalyze false (callsTwice true false) (NameIndex.first _) blockInput = some a ∧
      a.findings = [.needs 0 0] ∧ a.Exact (NameIndex.first (callsTwice true false)) false := by
  have hfindings : (effectsAnalyze false (callsTwice true false) (NameIndex.first _) blockInput).map
      (fun a => (a.findings, a.ctx.program, a.ctx.input)) =
      some ([.needs 0 0], callsTwice true false, blockInput) := by decide
  obtain ⟨a, ha, hvalue⟩ := Option.map_eq_some_iff.mp hfindings
  simp only [Prod.mk.injEq] at hvalue
  obtain ⟨hfound, hprogram, hinput⟩ := hvalue
  refine ⟨a, ha, hfound, (effectsAnalyze_exact_iff ha).mpr ?_⟩
  -- the only divergent site is the first call
  have hdivergent : ∀ i site, a.ctx.divergentAt i site → i = 0 ∧ site = 0 := by
    intro i site h
    rw [Ctx.divergentAt, Ctx.fn, hprogram] at h
    match i, site with
    | 0, 0 => exact ⟨rfl, rfl⟩
    | 0, 1 => cases h
    | 0, n + 2 => cases h
    | 1, 0 => cases h
    | 1, n + 1 => cases h
    | n + 2, _ => cases h
  rintro i site e ⟨-, -, hdiv, hhidden⟩ -
  obtain ⟨rfl, rfl⟩ := hdivergent i site hdiv
  rcases hhidden with hat | ⟨g, first, hcall, hfirst, hnot⟩
  · exact absurd hat (fun hat => (callsTwice_callsAt true false 0 (by decide)).not_indirect hat)
  · obtain rfl : first = 0 := by
      by_contra hne
      exact hfirst.2 0 (Nat.pos_of_ne_zero hne) hcall
    exact absurd hdiv hnot

end Mettle.Ir.Effects

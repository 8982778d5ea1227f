import Mettle.Ir.EffectsExact
import Mettle.Lib.Bfs

/-!
# The witnesses of the findings

`trace_chain` (`ir/ir_effects.c`) searches breadth first from a function for one that is a source of an effect,
or requires it, along the calls that carry the effect. It finds a shortest chain for every performed effect. For
the needs it stops only at clauses: a function that needs an effect because of an indirect call is no end of a
chain for it.
-/

namespace Mettle.Ir.Effects

namespace Ctx

variable (ctx : Ctx)

/-- `provided`. -/
def traceProvided (bit i site : ℕ) : Bool :=
  decide (bit ∈ (ctx.efn i).provides) && !(ctx.divergentAt i site && decide (bit ∈ ctx.input.groupMask))

/-- `carries`, for the call of a function that is recorded with its site. -/
def traceCarries (performs needs : ℕ → Finset ℕ) (bit : ℕ) (followNeeds : Bool) (i : ℕ) (callee : ℕ × ℕ) : Bool :=
  if followNeeds then decide (bit ∈ needs callee.1) && !ctx.traceProvided bit i callee.2
  else decide (bit ∈ performs callee.1)

/-- `terminal`; the test that follows it in the source repeats it. -/
def traceTerminal (bit : ℕ) (followNeeds : Bool) (i : ℕ) : Bool :=
  if followNeeds then decide (bit ∈ (ctx.efn i).requires) else decide (bit ∈ (ctx.efn i).sources)

/-- What `trace_chain` searches: the recorded callees that carry the effect. -/
def traceGraph (performs needs : ℕ → Finset ℕ) (bit : ℕ) (followNeeds : Bool) : Lib.Bfs ℕ ℕ where
  edges i := (ctx.efn i).callees.filter (ctx.traceCarries performs needs bit followNeeds i)
  terminal := ctx.traceTerminal bit followNeeds

end Ctx

/-- `trace_chain`: the hops of the chain; no hops, when no terminal is found. -/
def Analysis.traceChain (a : Analysis) (start bit : ℕ) (followNeeds : Bool) : List (Lib.Hop ℕ ℕ) :=
  (a.ctx.traceGraph a.performs a.needs bit followNeeds).search a.ctx.fnCount start

variable {P : Program} (index : NameIndex P)

namespace Analysis

variable (a : Analysis)

/-- The function calls the other one at the recorded site, and the call carries the effect. -/
structure Carries (bit : ℕ) (followNeeds : Bool) (i site g : ℕ) : Prop where
  recorded : (g, site) ∈ (a.ctx.efn i).callees
  calls : CallsAt index i site g
  carries : if followNeeds then bit ∈ a.needs g ∧ ¬ a.ctx.Provided i site bit else bit ∈ a.performs g

/-- The function is itself a source of the effect, or itself requires it: by a clause or through an indirect
call. -/
def Origin (bit : ℕ) (followNeeds : Bool) (i : ℕ) : Prop :=
  if followNeeds then
    bit ∈ (a.ctx.efn i).requires ∨ ∃ site, IndirectAt P a.ctx.input i site bit ∧ bit ∉ (a.ctx.efn i).provides
  else bit ∈ (a.ctx.efn i).sources

/-- A chain of calls from one function to another that carries the effect. -/
structure Chain (bit : ℕ) (followNeeds : Bool) (f : ℕ) (hops : List (Lib.Hop ℕ ℕ)) (g : ℕ) : Prop where
  head : hops.head?.map Lib.Hop.node = some f
  last : hops.getLast?.map Lib.Hop.node = some g
  calls : hops.IsChain fun h h' => ∃ site, h'.via = some site ∧ a.Carries index bit followNeeds h.node site h'.node

/-- A shortest chain from the function to an origin of the effect. -/
structure Witness (bit : ℕ) (followNeeds : Bool) (f : ℕ) (hops : List (Lib.Hop ℕ ℕ)) : Prop where
  chain : ∃ g, a.Chain index bit followNeeds f hops g ∧ a.Origin (P := P) bit followNeeds g
  shortest : ∀ hops' g, a.Chain index bit followNeeds f hops' g → a.Origin (P := P) bit followNeeds g →
    hops.length ≤ hops'.length

/-- A function that requires the effect by a clause is as near as any that requires it through an indirect
call. -/
def ClauseNearest (bit f : ℕ) : Prop :=
  ∃ hops g, a.Chain index bit true f hops g ∧ bit ∈ (a.ctx.efn g).requires ∧
    ∀ hops' g', a.Chain index bit true f hops' g' → a.Origin (P := P) bit true g' → hops.length ≤ hops'.length

end Analysis

variable {index} {a : Analysis} {bit f : ℕ} {followNeeds : Bool}

namespace Ctx

variable {ctx : Ctx}

/-- What is provided at a site is not followed. -/
theorem traceProvided_iff {i site : ℕ} : ctx.traceProvided bit i site = true ↔ ctx.Provided i site bit := by
  simp only [traceProvided, Provided, Bool.and_eq_true, decide_eq_true_eq, Bool.not_eq_true', Bool.and_eq_false_iff,
    decide_eq_false_iff_not]
  grind

end Ctx

/-- The edges of the search are the calls that carry the effect. -/
theorem Ctx.Built.carries_iff (hctx : a.ctx.Built index) {i site g : ℕ} :
    (g, site) ∈ (a.ctx.traceGraph a.performs a.needs bit followNeeds).edges i ↔
      a.Carries index bit followNeeds i site g := by
  have hcarries : a.ctx.traceCarries a.performs a.needs bit followNeeds i (g, site) = true ↔
      if followNeeds then bit ∈ a.needs g ∧ ¬ a.ctx.Provided i site bit else bit ∈ a.performs g := by
    unfold Ctx.traceCarries
    split
    · rw [Bool.and_eq_true, decide_eq_true_eq, Bool.not_eq_true', ← Bool.not_eq_true, Ctx.traceProvided_iff]
    · rw [decide_eq_true_eq]
  rw [Ctx.traceGraph, List.mem_filter, hcarries]
  constructor
  · rintro ⟨hmem, hcarry⟩
    exact ⟨hmem, (((hctx.records i).callees g site).mp hmem).1, hcarry⟩
  · rintro ⟨hmem, -, hcarry⟩
    exact ⟨hmem, hcarry⟩

/-- Its trails are the chains of such calls. -/
theorem Ctx.Built.trail_iff (hctx : a.ctx.Built index) {hops : List (Lib.Hop ℕ ℕ)} {g : ℕ} :
    (a.ctx.traceGraph a.performs a.needs bit followNeeds).Trail f hops g ↔
      a.Chain index bit followNeeds f hops g := by
  rw [Lib.Bfs.trail_iff]
  simp only [hctx.carries_iff]
  exact ⟨fun ⟨h, h', h''⟩ => ⟨h, h', h''⟩, fun h => ⟨h.head, h.last, h.calls⟩⟩

/-- The search ends where the effect comes from. -/
theorem traceTerminal_iff {i : ℕ} : a.ctx.traceTerminal bit followNeeds i = true ↔
    if followNeeds then bit ∈ (a.ctx.efn i).requires else bit ∈ (a.ctx.efn i).sources := by
  unfold Ctx.traceTerminal
  split <;> simp

/-- What the search returns. -/
theorem traceChain_spec (bit : ℕ) (followNeeds : Bool) (hctx : a.ctx.Built index) (hf : f < a.ctx.fnCount) :
    (∃ g, a.Chain index bit followNeeds f (a.traceChain f bit followNeeds) g ∧
      a.ctx.traceTerminal bit followNeeds g = true ∧
      ∀ hops g', a.Chain index bit followNeeds f hops g' → a.ctx.traceTerminal bit followNeeds g' = true →
        (a.traceChain f bit followNeeds).length ≤ hops.length) ∨
    (a.traceChain f bit followNeeds = [] ∧
      ∀ hops g, a.Chain index bit followNeeds f hops g → a.ctx.traceTerminal bit followNeeds g = false) := by
  have hclosed : ∀ i ∈ Finset.range a.ctx.fnCount, ∀ e ∈ (a.ctx.traceGraph a.performs a.needs bit followNeeds).edges i,
      e.1 ∈ Finset.range a.ctx.fnCount :=
    fun i _ e he => Finset.mem_range.mpr (hctx.callee_lt (List.mem_of_mem_filter he))
  have hspec := Lib.Bfs.search_spec (Finset.mem_range.mpr hf) (Finset.card_range a.ctx.fnCount).le hclosed
  simp only [hctx.trail_iff] at hspec
  exact hspec

/-- A source that direct calls reach is at the end of a chain. -/
theorem exists_chain_of_performs (hctx : a.ctx.Built index) (hperforms : a.ctx.performs = some a.performs)
    (hf : f < a.ctx.fnCount) (h : bit ∈ a.performs f) :
    ∃ hops g, a.Chain index bit false f hops g ∧ a.ctx.traceTerminal bit false g = true := by
  obtain ⟨g, hreach, hsource⟩ := (hctx.mem_performs hperforms hf bit).mp h
  have hwalk : ∀ y, Relation.ReflTransGen (Calls index) y g → ∀ hops, a.Chain index bit false f hops y →
      ∃ hops, a.Chain index bit false f hops g := by
    intro y hy
    induction hy using Relation.ReflTransGen.head_induction_on with
    | refl => exact fun hops hchain => ⟨hops, hchain⟩
    | @head y z hcall hrest ih =>
      intro hops hchain
      obtain ⟨⟨z, site⟩, hmem, rfl⟩ := List.mem_map.mp (hctx.mem_callees.mpr hcall)
      have hz : z < a.ctx.fnCount := hctx.callee_lt hmem
      have hedge : (z, site) ∈ (a.ctx.traceGraph a.performs a.needs bit false).edges y :=
        hctx.carries_iff.mpr ⟨hmem, (((hctx.records y).callees z site).mp hmem).1,
          (hctx.mem_performs hperforms hz bit).mpr ⟨g, hrest, hsource⟩⟩
      refine ih (hops ++ [⟨z, some site, none⟩]) (hctx.trail_iff.mp ?_)
      exact Lib.Bfs.Trail.snoc (h := ⟨z, some site, none⟩) (hctx.trail_iff.mpr hchain) hedge rfl
  obtain ⟨hops, hchain⟩ := hwalk f hreach [⟨f, none, none⟩] (hctx.trail_iff.mp (.start rfl))
  exact ⟨hops, g, hchain, traceTerminal_iff.mpr hsource⟩

/-- For every performed effect `trace_chain` returns a witness, and for a need exactly when a clause is as near as
any indirect call that requires the effect. -/
theorem traceChain_witness_iff {trust : Bool} {input : EffectInput}
    (h : effectsAnalyze trust P index input = some a) (hf : f < a.ctx.fnCount) (bit : ℕ) :
    (bit ∈ a.performs f → a.Witness index bit false f (a.traceChain f bit false)) ∧
      (bit ∈ a.needs f →
        (a.Witness index bit true f (a.traceChain f bit true) ↔ a.ClauseNearest index bit f)) := by
  obtain ⟨hctx, hperforms, -⟩ := effectsAnalyze_spec h
  constructor
  · intro hbit
    obtain ⟨hops, g, hchain, hterminal⟩ := exists_chain_of_performs hctx hperforms hf hbit
    rcases traceChain_spec bit false hctx hf with ⟨g', hfound, horigin, hshort⟩ | ⟨-, hnone⟩
    · exact ⟨⟨g', hfound, traceTerminal_iff.mp horigin⟩,
        fun hops' g'' hchain' horigin' => hshort hops' g'' hchain' (traceTerminal_iff.mpr horigin')⟩
    · rw [hnone hops g hchain] at hterminal
      cases hterminal
  · intro _
    have hclause : ∀ {g}, bit ∈ (a.ctx.efn g).requires → a.Origin (P := P) bit true g := fun h => .inl h
    constructor
    · rintro ⟨⟨g, hchain, -⟩, hshortest⟩
      rcases traceChain_spec bit true hctx hf with ⟨g', hfound, horigin, -⟩ | ⟨hnil, -⟩
      · exact ⟨_, g', hfound, traceTerminal_iff.mp horigin, hshortest⟩
      · have hhead := hchain.head
        rw [hnil] at hhead
        cases hhead
    · rintro ⟨hops, g, hchain, hrequires, hnearest⟩
      rcases traceChain_spec bit true hctx hf with ⟨g', hfound, horigin, hshort⟩ | ⟨-, hnone⟩
      · refine ⟨⟨g', hfound, hclause (traceTerminal_iff.mp horigin)⟩, fun hops' g'' hchain' horigin' => ?_⟩
        have hterminal : a.ctx.traceTerminal bit true g = true := traceTerminal_iff.mpr hrequires
        exact (hshort hops g hchain hterminal).trans (hnearest hops' g'' hchain' horigin')
      · have hterminal : a.ctx.traceTerminal bit true g = true := traceTerminal_iff.mpr hrequires
        rw [hnone hops g hchain] at hterminal
        cases hterminal

/-- A function that allocates in the function it calls. -/
def callsNew : Program where
  functions := [
    { name := some "main", instructions := [{ op := .call, text := some "f" }] },
    { name := some "f", instructions := [{ op := .new }] }]

/-- The table that declares `alloc`. -/
def allocInput : EffectInput := { effects := ["alloc"] }

/-- `main` performs `alloc` because `f` does. -/
theorem traceChain_callsNew :
    ∃ a, effectsAnalyze false callsNew (NameIndex.first _) allocInput = some a ∧
      (a.traceChain 0 0 false).map Lib.Hop.node = [0, 1] ∧
      a.Witness (NameIndex.first callsNew) 0 false 0 (a.traceChain 0 0 false) := by
  have hrun : (effectsAnalyze false callsNew (NameIndex.first _) allocInput).map
      (fun a => (decide (0 ∈ a.performs 0), a.ctx.fnCount, (a.traceChain 0 0 false).map Lib.Hop.node)) =
      some (true, 2, [0, 1]) := by decide
  obtain ⟨a, ha, hvalue⟩ := Option.map_eq_some_iff.mp hrun
  simp only [Prod.mk.injEq, decide_eq_true_eq] at hvalue
  obtain ⟨hperforms, hcount, hchain⟩ := hvalue
  exact ⟨a, ha, hchain, (traceChain_witness_iff ha (hcount ▸ Nat.two_pos) 0).1 hperforms⟩

/-- A function that calls a function value which requires `Block`. -/
def callsIndirect : Program where
  functions := [{ name := some "main",
                  instructions := [{ op := .callIndirect, effectSignature := some "requires Block" }] }]

/-- A signature that needs one effect. -/
theorem parseSignature_requires :
    blockInput.parseSignature (some "requires Block") = some { requires := {0} } := by
  have hrest : blockInput.parseClauses { requires := {0} } [] = some { requires := {0} } := by
    rw [EffectInput.parseClauses]
    rfl
  have htext : "requires Block".toList.dropWhile (· = ' ') = "requires Block".toList := by decide
  have hname : blockInput.parseNameList (("requires Block".toList.drop 9).takeWhile (· ≠ ' ')) = some {0} := by
    decide
  have hafter : ("requires Block".toList.drop 9).dropWhile (· ≠ ' ') = [] := by decide
  rw [EffectInput.parseSignature, if_neg (by decide), Option.getD_some, EffectInput.parseClauses]
  dsimp only
  exact hrest

/-- What the scan of `callsIndirect` finds. -/
theorem effectsBuild_callsIndirect :
    effectsBuild callsIndirect (NameIndex.first _) blockInput = some
      { program := callsIndirect, input := blockInput,
        fns := [((({} : EFn).noteSources ∅ none).noteSources {1} (some 0)).addIndirect 0 {0}] } := by
  have hscan : scanFunction callsIndirect (NameIndex.first _) blockInput
      { name := some "main", instructions := [{ op := .callIndirect, effectSignature := some "requires Block" }] } =
      some (((({} : EFn).noteSources ∅ none).noteSources {1} (some 0)).addIndirect 0 {0}) := by
    simp only [scanFunction, scanInsts, scanInst, scanOp, scanIndirect, parseSignature_requires,
      EffectInput.clauseBits, Option.bind_eq_bind, Option.bind_some, Option.map_some]
    rfl
  rw [effectsBuild, callsIndirect, List.mapM_cons]
  erw [hscan]
  rfl

/-- `main` needs `Block`, and the search for the reason finds nothing. -/
theorem traceChain_misses_indirect :
    ∃ a, effectsAnalyze false callsIndirect (NameIndex.first _) blockInput = some a ∧ 0 ∈ a.needs 0 ∧
      a.traceChain 0 0 true = [] ∧
      ¬ a.Witness (NameIndex.first callsIndirect) 0 true 0 (a.traceChain 0 0 true) := by
  have hrun : (effectsAnalyze false callsIndirect (NameIndex.first _) blockInput).map
      (fun a => (decide (0 ∈ a.needs 0), (a.traceChain 0 0 true).map Lib.Hop.node)) = some (true, []) := by
    rw [effectsAnalyze, effectsBuild_callsIndirect]
    decide
  obtain ⟨a, ha, hvalue⟩ := Option.map_eq_some_iff.mp hrun
  simp only [Prod.mk.injEq, decide_eq_true_eq, List.map_eq_nil_iff] at hvalue
  obtain ⟨hneeds, hchain⟩ := hvalue
  refine ⟨a, ha, hneeds, hchain, fun hwitness => ?_⟩
  obtain ⟨g, hg, -⟩ := hwitness.chain
  have hhead := hg.head
  rw [hchain] at hhead
  cases hhead

end Mettle.Ir.Effects

import Mettle.Lib.Sweep

/-!
# Gen/kill dataflow over a graph

The two-array iteration of a bit-vector analysis: every node has a joined set, to which the values of
its neighbours are added, and a value computed from it by its gen and kill sets. From an empty start
the loop stops at the least solution.
-/

open Function

namespace Mettle.Lib

variable {ι V : Type*} [DecidableEq ι] [DecidableEq V]

/-- A gen/kill problem: values flow into a node from its neighbours. -/
structure Dataflow (ι V : Type*) where
  nodes : List ι
  nbrs : ι → List ι
  gen : ι → Finset V
  kill : ι → Finset V

/-- The two arrays of the iteration. -/
structure FlowState (ι V : Type*) where
  join : ι → Finset V
  val : ι → Finset V

namespace Dataflow

variable (F : Dataflow ι V)

/-- What a node's neighbours contribute. -/
def inflow (val : ι → Finset V) (b : ι) : Finset V := (F.nbrs b).foldl (fun s e => s ∪ val e) ∅

/-- Visit one node; the flag says that its value changed. -/
def visit (s : FlowState ι V) (b : ι) : FlowState ι V × Bool :=
  let join := s.join b ∪ F.inflow s.val b
  let next := F.gen b ∪ (join \ F.kill b)
  ({ join := Function.update s.join b join, val := Function.update s.val b next },
    decide (next ≠ s.val b))

/-- Iterate from empty values. -/
def solve (rounds : ℕ) (seed : ι → Finset V) : Option (FlowState ι V) :=
  untilStable F.visit F.nodes rounds ⟨seed, fun _ => ∅⟩

variable {F}

omit [DecidableEq ι] in
theorem mem_inflow {val : ι → Finset V} {b : ι} {v : V} :
    v ∈ F.inflow val b ↔ ∃ e ∈ F.nbrs b, v ∈ val e := by
  rw [inflow, mem_foldl_union]
  simp

/-- A pair of assignments that the equations do not push beyond. -/
structure Above (F : Dataflow ι V) (seed : ι → Finset V) (J W : ι → Set V) : Prop where
  seed : ∀ b, ∀ v ∈ seed b, v ∈ J b
  join : ∀ b ∈ F.nodes, ∀ e ∈ F.nbrs b, W e ⊆ J b
  gen : ∀ b ∈ F.nodes, ∀ v ∈ F.gen b, v ∈ W b
  pass : ∀ b ∈ F.nodes, ∀ v ∈ J b, v ∉ F.kill b → v ∈ W b

/-- The invariant of the iteration: below `J` and `W`, values only grow, nothing off the nodes. -/
structure Running (F : Dataflow ι V) (seed : ι → Finset V) (J W : ι → Set V) (s : FlowState ι V) :
    Prop where
  join_le : ∀ b, ∀ v ∈ s.join b, v ∈ J b
  val_le : ∀ b, ∀ v ∈ s.val b, v ∈ W b
  val_sub : ∀ b, s.val b ⊆ F.gen b ∪ (s.join b \ F.kill b)
  seed_le : ∀ b, seed b ⊆ s.join b
  join_inflow : ∀ b, ∀ v ∈ s.join b, v ∈ seed b ∨ ∃ e ∈ F.nbrs b, v ∈ s.val e

omit [DecidableEq ι] in
theorem Running.visit_sub {seed : ι → Finset V} {J W : ι → Set V} {s : FlowState ι V}
    (hs : Running F seed J W s) (b : ι) :
    s.val b ⊆ F.gen b ∪ ((s.join b ∪ F.inflow s.val b) \ F.kill b) := by
  refine (hs.val_sub b).trans (Finset.union_subset_union_right ?_)
  exact Finset.sdiff_subset_sdiff Finset.subset_union_left (Finset.Subset.refl _)

variable {seed : ι → Finset V} {J W : ι → Set V} {s : FlowState ι V} {b : ι} {rounds : ℕ}

/-- A visit only adds to the values. -/
theorem Running.val_mono (hs : Running F seed J W s) (b e : ι) : s.val e ⊆ (F.visit s b).1.val e := by
  by_cases h : e = b
  · subst h
    simp only [visit, update_self]
    exact hs.visit_sub e
  · simp only [visit, update_of_ne h]
    exact Finset.Subset.refl _

theorem Running.visit (habove : Above F seed J W) (hb : b ∈ F.nodes) (hs : Running F seed J W s) :
    Running F seed J W (F.visit s b).1 := by
  -- what flows into `b` is below the solution, by the invariant at each neighbour
  have hjoin : ∀ v ∈ s.join b ∪ F.inflow s.val b, v ∈ J b := by
    intro v hv
    rcases Finset.mem_union.mp hv with hv | hv
    · exact hs.join_le b v hv
    · obtain ⟨e, he, hv⟩ := mem_inflow.mp hv
      exact habove.join b hb e he (hs.val_le e v hv)
  refine ⟨?_, ?_, ?_, ?_, ?_⟩
  · intro c v hv
    by_cases h : c = b
    · subst h
      simp only [Dataflow.visit, update_self] at hv
      exact hjoin v hv
    · simp only [Dataflow.visit, update_of_ne h] at hv
      exact hs.join_le c v hv
  · intro c v hv
    by_cases h : c = b
    · subst h
      simp only [Dataflow.visit, update_self, Finset.mem_union, Finset.mem_sdiff] at hv
      rcases hv with hv | ⟨hv, hkill⟩
      · exact habove.gen c hb v hv
      · exact habove.pass c hb v (hjoin v (Finset.mem_union.mpr hv)) hkill
    · simp only [Dataflow.visit, update_of_ne h] at hv
      exact hs.val_le c v hv
  · intro c
    by_cases h : c = b
    · subst h
      simp only [Dataflow.visit, update_self]
      exact Finset.Subset.refl _
    · simp only [Dataflow.visit, update_of_ne h]
      exact hs.val_sub c
  · intro c
    by_cases h : c = b
    · subst h
      simp only [Dataflow.visit, update_self]
      exact (hs.seed_le c).trans Finset.subset_union_left
    · simp only [Dataflow.visit, update_of_ne h]
      exact hs.seed_le c
  -- what the join holds still comes from the seed or from a neighbour, since values only grow
  · intro c v hv
    have hgrow : ∀ e, v ∈ s.val e → v ∈ (F.visit s b).1.val e := fun e h => hs.val_mono b e h
    have hold : v ∈ s.join c → v ∈ seed c ∨ ∃ e ∈ F.nbrs c, v ∈ (F.visit s b).1.val e := by
      intro hv
      exact (hs.join_inflow c v hv).imp_right fun ⟨e, he, h⟩ => ⟨e, he, hgrow e h⟩
    by_cases h : c = b
    · subst h
      simp only [Dataflow.visit, update_self, Finset.mem_union] at hv
      rcases hv with hv | hv
      · exact hold hv
      · obtain ⟨e, he, hv⟩ := mem_inflow.mp hv
        exact .inr ⟨e, he, hgrow e hv⟩
    · simp only [Dataflow.visit, update_of_ne h] at hv
      exact hold hv

/-- What the last sweep establishes at a node. -/
structure Solved (F : Dataflow ι V) (b : ι) (s : FlowState ι V) : Prop where
  join : ∀ e ∈ F.nbrs b, s.val e ⊆ s.join b
  val : s.val b = F.gen b ∪ (s.join b \ F.kill b)

/-- A visit without a change leaves all values as they were. -/
theorem val_of_unchanged (h : (F.visit s b).2 = false) : (F.visit s b).1.val = s.val := by
  have hsame : F.gen b ∪ ((s.join b ∪ F.inflow s.val b) \ F.kill b) = s.val b := by
    simpa [Dataflow.visit] using h
  simp only [Dataflow.visit, hsame, update_eq_self]

/-- The loop returns a solution of the equations below `J` and `W`. -/
theorem solve_spec {t : FlowState ι V} (habove : Above F seed J W) (h : F.solve rounds seed = some t) :
    Running F seed J W t ∧ ∀ b ∈ F.nodes, Solved F b t := by
  refine untilStable_post (fun s b hb hs => hs.visit habove hb) ?_ ?_ ?_ h
  · intro s b hb hs hstable
    have hval := val_of_unchanged hstable
    refine ⟨?_, ?_⟩
    · intro e he v hv
      rw [hval] at hv
      simp only [Dataflow.visit, update_self, Finset.mem_union]
      exact .inr (mem_inflow.mpr ⟨e, he, hv⟩)
    · simp only [Dataflow.visit, update_self]
  · intro s b hb c hc hs hpost hstable
    have hval := val_of_unchanged hstable
    have hjoin : s.join b ⊆ (F.visit s c).1.join b := by
      by_cases h : b = c
      · subst h
        simp only [Dataflow.visit, update_self]
        exact Finset.subset_union_left
      · simp only [Dataflow.visit, update_of_ne h]
        exact Finset.Subset.refl _
    refine ⟨fun e he => ?_, ?_⟩
    · rw [hval]
      exact (hpost.join e he).trans hjoin
    · by_cases h : b = c
      · subst h
        simp only [Dataflow.visit, update_self]
      · rw [hval, hpost.val]
        simp only [Dataflow.visit, update_of_ne h]
  · exact ⟨fun b v hv => habove.seed b v hv, nofun, fun b => Finset.empty_subset _,
      fun b => Finset.Subset.refl _, fun b v hv => .inl hv⟩

/-- Values inside a finite universe: as many rounds as there are bits are enough. -/
theorem solve_stops {U : Finset V} (hgen : ∀ b, F.gen b ⊆ U) (hseed : ∀ b, seed b ⊆ U)
    (hrounds : F.nodes.toFinset.card * U.card < rounds) : ∃ t, F.solve rounds seed = some t := by
  have habove : Above F seed (fun _ => (U : Set V)) (fun _ => (U : Set V)) :=
    ⟨fun b v hv => hseed b hv, fun _ _ _ _ => Set.Subset.rfl, fun b _ v hv => hgen b hv,
      fun _ _ v hv _ => hv⟩
  have hinv : ∀ s, ∀ b ∈ F.nodes, Running F seed (fun _ => (U : Set V)) (fun _ => (U : Set V)) s →
      Running F seed (fun _ => (U : Set V)) (fun _ => (U : Set V)) (F.visit s b).1 :=
    fun s b hb hs => hs.visit habove hb
  -- the measure counts the bits set at the nodes
  let bits : FlowState ι V → ℕ := fun s => ∑ b ∈ F.nodes.toFinset, (s.val b).card
  have hcard : ∀ s, Running F seed (fun _ => (U : Set V)) (fun _ => (U : Set V)) s →
      bits s ≤ F.nodes.toFinset.card * U.card := by
    intro s hs
    calc ∑ b ∈ F.nodes.toFinset, (s.val b).card
        ≤ ∑ _b ∈ F.nodes.toFinset, U.card :=
          Finset.sum_le_sum fun b _ => Finset.card_le_card fun v hv => hs.val_le b v hv
      _ = F.nodes.toFinset.card * U.card := Finset.sum_const_nat fun _ _ => rfl
  have hmono : ∀ s, ∀ b ∈ F.nodes, Running F seed (fun _ => (U : Set V)) (fun _ => (U : Set V)) s →
      bits s ≤ bits (F.visit s b).1 :=
    fun s b _ hs => Finset.sum_le_sum fun e _ => Finset.card_le_card (hs.val_mono b e)
  have hstrict : ∀ s, ∀ b ∈ F.nodes,
      Running F seed (fun _ => (U : Set V)) (fun _ => (U : Set V)) s →
      (F.visit s b).2 = true → bits s < bits (F.visit s b).1 := by
    intro s b hb hs hchanged
    refine Finset.sum_lt_sum (fun e _ => Finset.card_le_card (hs.val_mono b e))
      ⟨b, List.mem_toFinset.mpr hb, Finset.card_lt_card ?_⟩
    refine (Finset.ssubset_iff_subset_ne).mpr ⟨hs.val_mono b b, fun heq => ?_⟩
    simp only [Dataflow.visit, update_self, decide_eq_true_eq] at hchanged heq
    exact hchanged heq.symm
  refine untilStable_stops hinv hmono hstrict hcard ?_ (by omega)
  exact ⟨fun b v hv => hseed b hv, nofun, fun b => Finset.empty_subset _,
    fun b => Finset.Subset.refl _, fun b v hv => .inl hv⟩

end Dataflow

end Mettle.Lib

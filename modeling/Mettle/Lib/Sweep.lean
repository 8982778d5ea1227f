import Mettle.Lib.Loop

/-!
# Sweeps until nothing changes

An iterative analysis visits its nodes in a fixed order, updates one cell at a time, notes whether
a cell changed, and repeats the sweep until none did. The rules below reduce such a loop to facts
about one update: an invariant, a bounded measure that grows with every noted change, and what an
update that changes nothing establishes about its node.
-/

open List Function

namespace Mettle.Lib

section

variable {σ ι : Type*} (update : σ → ι → σ × Bool)

/-- Update one node and remember whether anything changed so far. -/
def sweepNode (acc : σ × Bool) (i : ι) : σ × Bool :=
  ((update acc.1 i).1, acc.2 || (update acc.1 i).2)

/-- One sweep over the nodes. -/
def sweep (nodes : List ι) (s : σ) : σ × Bool := nodes.foldl (sweepNode update) (s, false)

/-- Sweep until a sweep changes nothing; `none` when the rounds run out. -/
def untilStable (nodes : List ι) : ℕ → σ → Option σ
  | 0, _ => none
  | rounds + 1, s =>
    if (sweep update nodes s).2 then untilStable nodes rounds (sweep update nodes s).1
    else some (sweep update nodes s).1

section

variable {update} {nodes : List ι} {Inv : σ → Prop}
  (hinv : ∀ s, ∀ i ∈ nodes, Inv s → Inv (update s i).1)

include hinv

/-- A sweep keeps the invariant. -/
theorem sweepFold_inv {l : List ι} (hl : l ⊆ nodes) (acc : σ × Bool) (hs : Inv acc.1) :
    Inv (l.foldl (sweepNode update) acc).1 := by
  induction l generalizing acc with
  | nil => exact hs
  | cons i rest ih =>
    rw [cons_subset] at hl
    exact ih hl.2 _ (hinv acc.1 i hl.1 hs)

theorem sweep_inv {s : σ} (hs : Inv s) : Inv (sweep update nodes s).1 :=
  sweepFold_inv hinv (Subset.refl _) (s, false) hs

/-- What the loop returns has the invariant. -/
theorem untilStable_inv {rounds : ℕ} {s t : σ} (hs : Inv s)
    (h : untilStable update nodes rounds s = some t) : Inv t := by
  induction rounds generalizing s with
  | zero => cases h
  | succ rounds ih =>
    rw [untilStable] at h
    split at h
    · exact ih (sweep_inv hinv hs) h
    · cases h
      exact sweep_inv hinv hs

section Measure

variable {measure : σ → ℕ}
  (hmono : ∀ s, ∀ i ∈ nodes, Inv s → measure s ≤ measure (update s i).1)
  (hstrict : ∀ s, ∀ i ∈ nodes, Inv s → (update s i).2 = true → measure s < measure (update s i).1)

include hmono hstrict

/-- Over the nodes the measure grows, strictly when something changes. -/
theorem sweepFold_measure {l : List ι} (hl : l ⊆ nodes) (acc : σ × Bool) (hs : Inv acc.1) :
    measure acc.1 ≤ measure (l.foldl (sweepNode update) acc).1 ∧
      ((l.foldl (sweepNode update) acc).2 = true → acc.2 = true ∨
        measure acc.1 < measure (l.foldl (sweepNode update) acc).1) := by
  induction l generalizing acc with
  | nil => exact ⟨le_rfl, .inl⟩
  | cons i rest ih =>
    rw [cons_subset] at hl
    obtain ⟨hle, hlt⟩ := ih hl.2 (sweepNode update acc i) (hinv acc.1 i hl.1 hs)
    have hone := hmono acc.1 i hl.1 hs
    refine ⟨hone.trans hle, fun hchanged => ?_⟩
    rcases hlt hchanged with h | h
    · rcases Bool.or_eq_true_iff.mp h with h | h
      · exact .inl h
      · exact .inr ((hstrict acc.1 i hl.1 hs h).trans_le hle)
    · exact .inr (hone.trans_lt h)

/-- A bounded measure that grows with every change makes the loop stop. -/
theorem untilStable_stops {bound : ℕ} (hbound : ∀ s, Inv s → measure s ≤ bound) {rounds : ℕ}
    {s : σ} (hs : Inv s) (hrounds : bound < rounds + measure s) :
    ∃ t, untilStable update nodes rounds s = some t := by
  induction rounds generalizing s with
  | zero =>
    have := hbound s hs
    omega
  | succ rounds ih =>
    rw [untilStable]
    split
    · rename_i hchanged
      have hgrow := (sweepFold_measure hinv hmono hstrict (Subset.refl _) (s, false) hs).2
        hchanged
      refine ih (sweep_inv hinv hs) ?_
      rcases hgrow with h | h
      · cases h
      · change measure s < measure (sweep update nodes s).1 at h
        omega
    · exact ⟨_, rfl⟩

end Measure

section Post

variable {Post : ι → σ → Prop}
  (hest : ∀ s, ∀ i ∈ nodes, Inv s → (update s i).2 = false → Post i (update s i).1)
  (hkeep : ∀ s, ∀ i ∈ nodes, ∀ j ∈ nodes, Inv s → Post i s → (update s j).2 = false →
    Post i (update s j).1)

include hest hkeep

/-- When nothing changes, what each node asks for holds afterwards. -/
theorem sweepFold_post {l : List ι} (hl : l ⊆ nodes) (acc : σ × Bool) (hs : Inv acc.1)
    (hstable : (l.foldl (sweepNode update) acc).2 = false) :
    acc.2 = false ∧ (∀ i ∈ nodes, Post i acc.1 → Post i (l.foldl (sweepNode update) acc).1) ∧
      ∀ i ∈ l, Post i (l.foldl (sweepNode update) acc).1 := by
  induction l generalizing acc with
  | nil => exact ⟨hstable, fun _ _ h => h, nofun⟩
  | cons i rest ih =>
    rw [cons_subset] at hl
    obtain ⟨hflag, hold, hrest⟩ :=
      ih hl.2 (sweepNode update acc i) (hinv acc.1 i hl.1 hs) hstable
    obtain ⟨hacc, hi⟩ := Bool.or_eq_false_iff.mp hflag
    refine ⟨hacc, fun j hj h => hold j hj (hkeep acc.1 j hj i hl.1 hs h hi), ?_⟩
    rintro j hj
    rcases mem_cons.mp hj with rfl | hj
    · exact hold j hl.1 (hest acc.1 j hl.1 hs hi)
    · exact hrest j hj

/-- What the loop returns: the invariant, and what the last sweep established at every node. -/
theorem untilStable_post {rounds : ℕ} {s t : σ} (hs : Inv s)
    (h : untilStable update nodes rounds s = some t) : Inv t ∧ ∀ i ∈ nodes, Post i t := by
  induction rounds generalizing s with
  | zero => cases h
  | succ rounds ih =>
    rw [untilStable] at h
    split at h
    · exact ih (sweep_inv hinv hs) h
    · rename_i hstable
      cases h
      exact ⟨sweep_inv hinv hs, (sweepFold_post hinv hest hkeep (Subset.refl _) (s, false) hs
        (Bool.eq_false_iff.mpr hstable)).2.2⟩

end Post

end

end

/-!
## Sets gathered along filtered edges

A node has values of its own and receives those of the nodes it points at, less what the edge holds
back. Sweeping over the nodes until nothing changes gives at each node the values that some path
carries to it, whether the values of a node start with its own (`seed`) or are added by its first
visit (`own`).
-/

/-- The values of the nodes and the edges between them, each with the set it holds back. -/
structure Gather (ι V : Type*) where
  seed : ι → Finset V
  own : ι → Finset V
  edges : ι → List (ι × Finset V)

namespace Gather

variable {ι V : Type*} [DecidableEq ι] [DecidableEq V] (G : Gather ι V)

/-- What a visit brings to a node. -/
def inflow (val : ι → Finset V) (i : ι) : Finset V :=
  (G.edges i).foldl (fun s e => s ∪ (val e.1 \ e.2)) (G.own i)

/-- Visit one node; the flag says that its value grew. -/
def visit (val : ι → Finset V) (i : ι) : (ι → Finset V) × Bool :=
  (Function.update val i (val i ∪ G.inflow val i), decide (¬ G.inflow val i ⊆ val i))

/-- Iterate from the seeds. -/
def solve (nodes : List ι) (rounds : ℕ) : Option (ι → Finset V) :=
  untilStable G.visit nodes rounds G.seed

/-- The node has all that a visit would bring. -/
def Settled (i : ι) (val : ι → Finset V) : Prop := G.inflow val i ⊆ val i

/-- A path no edge of which holds the value back ends at a node that has it. -/
inductive Carries : ι → V → Prop
  | seed {i : ι} {v : V} : v ∈ G.seed i → Carries i v
  | own {i : ι} {v : V} : v ∈ G.own i → Carries i v
  | edge {i : ι} {v : V} {e : ι × Finset V} : e ∈ G.edges i → v ∉ e.2 → Carries e.1 v → Carries i v

variable {G}

omit [DecidableEq ι] in
/-- What flows into a node: its own elements, and those that its edges let through. -/
theorem mem_inflow {val : ι → Finset V} {i : ι} {v : V} :
    v ∈ G.inflow val i ↔ v ∈ G.own i ∨ ∃ e ∈ G.edges i, v ∈ val e.1 ∧ v ∉ e.2 := by
  rw [inflow, mem_foldl_union]
  simp only [Finset.mem_sdiff]

/-- A visit adds the inflow to the node. -/
@[simp] theorem visit_self (val : ι → Finset V) (i : ι) :
    (G.visit val i).1 i = val i ∪ G.inflow val i :=
  update_self ..

variable {i : ι} {rounds : ℕ}

theorem visit_of_ne {j : ι} (h : j ≠ i) (val : ι → Finset V) : (G.visit val i).1 j = val j :=
  update_of_ne h ..

theorem visit_mono (val : ι → Finset V) (i j : ι) : val j ⊆ (G.visit val i).1 j := by
  by_cases h : j = i
  · subst h
    rw [visit_self]
    exact Finset.subset_union_left
  · rw [visit_of_ne h]

/-- A visit that notes no change changes nothing. -/
theorem visit_of_unchanged {val : ι → Finset V} (h : (G.visit val i).2 = false) :
    (G.visit val i).1 = val ∧ G.Settled i val := by
  have hsub : G.inflow val i ⊆ val i := by simpa [visit] using h
  refine ⟨?_, hsub⟩
  rw [visit, Finset.union_eq_left.mpr hsub, update_eq_self]

/-- What the loop returns at the nodes, when no edge leaves them. -/
theorem solve_spec {nodes : List ι} {t : ι → Finset V} (hclosed : ∀ i ∈ nodes, ∀ e ∈ G.edges i, e.1 ∈ nodes)
    (h : G.solve nodes rounds = some t) (hi : i ∈ nodes) (v : V) : v ∈ t i ↔ G.Carries i v := by
  let Inv : (ι → Finset V) → Prop := fun val =>
    (∀ j, G.seed j ⊆ val j) ∧ ∀ j, ∀ w ∈ val j, G.Carries j w
  have hstep : ∀ val, ∀ j ∈ nodes, Inv val → Inv (G.visit val j).1 := by
    rintro val j - ⟨hseed, hval⟩
    refine ⟨fun k => (hseed k).trans (visit_mono val j k), fun k w hw => ?_⟩
    by_cases hk : k = j
    · subst hk
      rw [visit_self, Finset.mem_union, mem_inflow] at hw
      rcases hw with hw | hw | ⟨e, he, hw, hheld⟩
      · exact hval k w hw
      · exact .own hw
      · exact .edge he hheld (hval e.1 w hw)
    · rw [visit_of_ne hk] at hw
      exact hval k w hw
  have hpost : Inv t ∧ ∀ j ∈ nodes, G.Settled j t := by
    refine untilStable_post hstep ?_ ?_ ⟨fun _ => Finset.Subset.refl _, fun _ _ hw => .seed hw⟩ h
    · intro val j _ _ hstable
      obtain ⟨hsame, hsub⟩ := visit_of_unchanged hstable
      rw [hsame]
      exact hsub
    · intro val j _ k _ _ hj hstable
      rw [(visit_of_unchanged hstable).1]
      exact hj
  obtain ⟨⟨hseed, hval⟩, hsub⟩ := hpost
  refine ⟨hval i v, fun hcarries => ?_⟩
  -- along the path, every value has arrived
  induction hcarries with
  | seed hv => exact hseed _ hv
  | own hv => exact hsub _ hi (mem_inflow.mpr (.inl hv))
  | edge he hheld _ ih =>
    exact hsub _ hi (mem_inflow.mpr (.inr ⟨_, he, ih (hclosed _ hi _ he), hheld⟩))

/-- Values inside a finite universe: as many rounds as there are bits are enough. -/
theorem solve_stops {nodes : List ι} {U : Finset V} (hseed : ∀ i, G.seed i ⊆ U) (hown : ∀ i, G.own i ⊆ U)
    (hrounds : nodes.toFinset.card * U.card < rounds) : ∃ t, G.solve nodes rounds = some t := by
  have hinv : ∀ val : ι → Finset V, ∀ i ∈ nodes, (∀ j, val j ⊆ U) → ∀ j, (G.visit val i).1 j ⊆ U := by
    intro val i _ hval j
    by_cases hj : j = i
    · subst hj
      rw [visit_self]
      refine Finset.union_subset (hval j) fun w hw => ?_
      rcases mem_inflow.mp hw with hw | ⟨e, -, hw, -⟩
      · exact hown j hw
      · exact hval e.1 hw
    · rw [visit_of_ne hj]
      exact hval j
  -- the measure counts the values at the nodes
  let count : (ι → Finset V) → ℕ := fun val => ∑ i ∈ nodes.toFinset, (val i).card
  have hbound : ∀ val : ι → Finset V, (∀ j, val j ⊆ U) → count val ≤ nodes.toFinset.card * U.card := by
    intro val hval
    calc ∑ i ∈ nodes.toFinset, (val i).card
        ≤ ∑ _i ∈ nodes.toFinset, U.card :=
          Finset.sum_le_sum fun i _ => Finset.card_le_card (hval i)
      _ = nodes.toFinset.card * U.card := Finset.sum_const_nat fun _ _ => rfl
  have hmono : ∀ val : ι → Finset V, ∀ i ∈ nodes, (∀ j, val j ⊆ U) →
      count val ≤ count (G.visit val i).1 :=
    fun val i _ _ => Finset.sum_le_sum fun j _ => Finset.card_le_card (visit_mono val i j)
  have hstrict : ∀ val : ι → Finset V, ∀ i ∈ nodes, (∀ j, val j ⊆ U) →
      (G.visit val i).2 = true → count val < count (G.visit val i).1 := by
    intro val i hi _ hchanged
    refine Finset.sum_lt_sum (fun j _ => Finset.card_le_card (visit_mono val i j))
      ⟨i, mem_toFinset.mpr hi, Finset.card_lt_card ?_⟩
    refine Finset.ssubset_iff_subset_ne.mpr ⟨visit_mono val i i, fun heq => ?_⟩
    simp only [visit, update_self, decide_eq_true_eq] at hchanged heq
    exact hchanged (Finset.union_eq_left.mp heq.symm)
  exact untilStable_stops hinv hmono hstrict hbound hseed (by omega)

/-- Adding the sets of the successors one after the other, in place, is one visit. -/
theorem sweep_eq_visit {targets : List ι} (hown : G.own i = ∅) (hedges : G.edges i = targets.map fun c => (c, ∅))
    (val : ι → Finset V) :
    sweep (fun val c => (update val i (val i ∪ val c), decide (¬ val c ⊆ val i))) targets val =
      G.visit val i := by
  -- `A` is what the successors before this one have added
  have hfold : ∀ (l : List ι) (A : Finset V),
      l.foldl (sweepNode fun val c =>
        (update val i (val i ∪ val c), decide (¬ val c ⊆ val i)))
        (update val i (val i ∪ A), decide (¬ A ⊆ val i)) =
      (update val i (val i ∪ l.foldl (fun s c => s ∪ val c) A),
        decide (¬ l.foldl (fun s c => s ∪ val c) A ⊆ val i)) := by
    intro l
    induction l with
    | nil => exact fun _ => rfl
    | cons c rest ih =>
      intro A
      rw [foldl_cons, foldl_cons, ← ih, sweepNode]
      simp only [update_self, update_idem]
      congr 2
      · by_cases hc : c = i
        · subst hc
          rw [update_self, Finset.union_self, Finset.union_comm A, ← Finset.union_assoc,
            Finset.union_self]
        · rw [update_of_ne hc, Finset.union_assoc]
      · rw [Bool.eq_iff_iff]
        by_cases hc : c = i
        · subst hc
          simp [Finset.union_subset_iff]
        · simp only [update_of_ne hc, Bool.or_eq_true, decide_eq_true_eq, Finset.union_subset_iff]
          grind
  have hinflow : G.inflow val i = targets.foldl (fun s c => s ∪ val c) ∅ := by
    rw [inflow, hown, hedges, foldl_map]
    simp only [Finset.sdiff_empty]
  have hstart := hfold targets ∅
  rw [Finset.union_empty, update_eq_self, ← hinflow] at hstart
  simpa [sweep, visit] using hstart

end Gather

end Mettle.Lib

import Mathlib

/-!
# Dominance

A graph with a root. A node dominates another when every path from the root to the second passes
through the first. The dominators of a node are the nodes above it in a tree of parent links, and the
tree is found by iteration: the parent of a node becomes the nearest common ancestor of those of its
predecessors that have a parent already, in an order of the nodes that puts some predecessor of each
node before it. `Converging` is what holds while the nodes are visited in that order.
-/

open List Option Function

namespace Mettle.Lib

/-- A graph with a root. -/
structure Flow (V : Type*) where
  edge : V → V → Prop
  root : V

namespace Flow

variable {V : Type*} (G : Flow V)

/-- A path from the root to a node, as the list of its nodes, the last one first. -/
inductive PathTo : V → List V → Prop
  | root : PathTo G.root [G.root]
  | step {p b : V} {l : List V} : PathTo p l → G.edge p b → PathTo b (b :: l)

def Reachable (b : V) : Prop := ∃ l, G.PathTo b l

/-- Every path from the root to `b`, and there is one, passes through `a`. -/
def Dominates (a b : V) : Prop := G.Reachable b ∧ ∀ l, G.PathTo b l → a ∈ l

def StrictlyDominates (a b : V) : Prop := G.Dominates a b ∧ a ≠ b

/-- The nodes where what `b` dominates ends. -/
def Frontier (b : V) : Set V :=
  {y | (∃ p, G.edge p y ∧ G.Dominates b p) ∧ ¬ G.StrictlyDominates b y}

variable {G}

theorem reachable_root : G.Reachable G.root := ⟨_, .root⟩

variable {p b a : V} {l : List V}

theorem Reachable.step (h : G.Reachable p) (he : G.edge p b) : G.Reachable b := by
  obtain ⟨l, hl⟩ := h
  exact ⟨_, hl.step he⟩

theorem PathTo.reachable (h : G.PathTo b l) : G.Reachable b := ⟨l, h⟩

/-- Every node of a path is reachable. -/
theorem PathTo.reachable_of_mem (h : G.PathTo b l) (ha : a ∈ l) : G.Reachable a := by
  induction h with
  | root =>
    rw [mem_singleton] at ha
    rw [ha]
    exact reachable_root
  | step hp he ih =>
    rcases mem_cons.mp ha with rfl | ha
    · exact hp.reachable.step he
    · exact ih ha

theorem Dominates.reachable (h : G.Dominates a b) : G.Reachable a := by
  obtain ⟨⟨l, hl⟩, hall⟩ := h
  exact hl.reachable_of_mem (hall l hl)

theorem Dominates.eq_root (h : G.Dominates a G.root) : a = G.root :=
  mem_singleton.mp (h.2 _ .root)

/-- What strictly dominates a node dominates its predecessors. -/
theorem StrictlyDominates.pred {d : V} (h : G.StrictlyDominates d b) (he : G.edge p b) (hp : G.Reachable p) :
    G.Dominates d p := by
  refine ⟨hp, fun l hl => ?_⟩
  exact (mem_cons.mp (h.1.2 _ (hl.step he))).resolve_left h.2

/-- An order of the reachable nodes that puts some predecessor of each node before it. -/
structure Numbering (G : Flow V) (rank : V → ℕ) : Prop where
  inj : ∀ {x y : V}, G.Reachable x → G.Reachable y → rank x = rank y → x = y
  descends : ∀ {b : V}, G.Reachable b → b ≠ G.root →
    ∃ p, G.Reachable p ∧ G.edge p b ∧ rank p < rank b

/-! ## Trees of parent links -/

/-- `a` is found by following the links from `b`. -/
def Above (parent : V → Option V) (b a : V) : Prop :=
  Relation.ReflTransGen (fun x y => parent x = some y) b a

/-- Links from a part of the reachable nodes down in rank, with the root linked to itself. -/
structure Tree (G : Flow V) (rank : V → ℕ) (parent : V → Option V) : Prop where
  root : parent G.root = some G.root
  lt : ∀ {x y : V}, x ≠ G.root → parent x = some y → rank y < rank x
  closed : ∀ {x y : V}, parent x = some y → (parent y).isSome
  reachable : ∀ {x y : V}, parent x = some y → G.Reachable x

variable {rank : V → ℕ} {parent parent' : V → Option V}

theorem Above.refl (b : V) : Above parent b b := Relation.ReflTransGen.refl

/-- What is above the parent is above the node. -/
theorem Above.of_parent {c : V} (h : parent b = some c) (ha : Above parent c a) : Above parent b a :=
  Relation.ReflTransGen.head h ha

theorem Above.trans {c : V} (h : Above parent b c) (ha : Above parent c a) : Above parent b a :=
  Relation.ReflTransGen.trans h ha

/-- Above a node are the node and what is above its parent. -/
theorem Above.eq_or (h : Above parent b a) : b = a ∨ ∃ c, parent b = some c ∧ Above parent c a :=
  Relation.ReflTransGen.cases_head h

namespace Tree

section

variable (h : G.Tree rank parent)
include h

theorem above_root {a : V} (ha : Above parent G.root a) : a = G.root := by
  induction ha with
  | refl => rfl
  | tail _ hstep ih =>
    rw [ih, h.root] at hstep
    exact (some.inj hstep).symm

theorem rank_le {x a : V} (ha : Above parent x a) : rank a ≤ rank x := by
  induction ha with
  | refl => exact le_rfl
  | @tail b c _ hstep ih =>
    by_cases hb : b = G.root
    · rw [hb, h.root] at hstep
      rw [← some.inj hstep, ← hb]
      exact ih
    · exact (h.lt hb hstep).le.trans ih

/-- What is above a node with a parent has one. -/
theorem isSome_of_above {x a : V} (hx : (parent x).isSome) (ha : Above parent x a) : (parent a).isSome := by
  induction ha with
  | refl => exact hx
  | tail _ hstep _ => exact h.closed hstep

theorem reachable_of_isSome {x : V} (hx : (parent x).isSome) : G.Reachable x := by
  obtain ⟨y, hy⟩ := isSome_iff_exists.mp hx
  exact h.reachable hy

theorem eq_of_rank_le {x a : V} (ha : Above parent x a) (hle : rank x ≤ rank a) : a = x := by
  rcases ha.eq_or with rfl | ⟨c, hc, hca⟩
  · rfl
  · by_cases hx : x = G.root
    · rw [hx] at ha ⊢
      exact h.above_root ha
    · have := h.lt hx hc
      have := h.rank_le hca
      omega

/-- The nodes above a node are above one another. -/
theorem above_of_rank_le {x a b : V} (ha : Above parent x a) (hb : Above parent x b) (hle : rank b ≤ rank a) :
    Above parent a b := by
  have hunique : Relator.RightUnique fun x y : V => parent x = some y :=
    fun _ _ _ h₁ h₂ => some.inj (h₁.symm.trans h₂)
  rcases Relation.ReflTransGen.total_of_right_unique hunique ha hb with hab | hba
  · exact hab
  · rw [h.eq_of_rank_le hba hle]
    exact Above.refl b

/-- Of two nodes the one with the larger rank may be replaced by its parent. -/
theorem above_inter_parent {a b c z : V} (hlt : rank b < rank a) (hc : parent a = some c) :
    Above parent a z ∧ Above parent b z ↔ Above parent c z ∧ Above parent b z := by
  constructor
  · rintro ⟨ha, hb⟩
    refine ⟨?_, hb⟩
    rcases ha.eq_or with rfl | ⟨c', hc', hz⟩
    · have := h.rank_le hb
      omega
    · rw [hc] at hc'
      rwa [some.inj hc']
  · rintro ⟨ha, hb⟩
    exact ⟨ha.of_parent hc, hb⟩

/-- Links that differ only below the rank of the target lead to it alike. -/
theorem above_of_agree {x w y : V} (hagree : ∀ z, z ≠ x → parent z = parent' z) (hle : rank x ≤ rank y)
    (hw : Above parent w y) : Above parent' w y := by
  induction hw using Relation.ReflTransGen.head_induction_on with
  | refl => exact Above.refl y
  | @head b c hstep hcy ih =>
    by_cases hb : b = x
    · have := h.rank_le (Above.of_parent hstep hcy)
      have heq := h.eq_of_rank_le (Above.of_parent hstep hcy) (by rw [hb]; exact hle)
      rw [heq]
      exact Above.refl b
    · rw [hagree b hb] at hstep
      exact Above.of_parent hstep ih

end

/-- Links that differ at a node that is not passed lead to the same nodes. -/
theorem above_of_not_above {x w y : V} (hagree : ∀ z, z ≠ x → parent z = parent' z)
    (hx : ¬ Above parent w x) (hw : Above parent w y) : Above parent' w y := by
  induction hw using Relation.ReflTransGen.head_induction_on with
  | refl => exact Above.refl y
  | @head b c hstep hcy ih =>
    have hb : b ≠ x := by
      rintro rfl
      exact hx (Above.refl b)
    rw [hagree b hb] at hstep
    refine Above.of_parent hstep (ih fun hcx => hx ?_)
    rw [← hagree b hb] at hstep
    exact Above.of_parent hstep hcx

end Tree

/-! ## The iteration -/

/-- `a` is above every predecessor of `b` that has a parent. -/
def Common (G : Flow V) (parent : V → Option V) (b a : V) : Prop :=
  ∀ p, G.edge p b → (parent p).isSome → Above parent p a

/-- `c` is the nearest common ancestor of the predecessors of `b` that have a parent. -/
def Nearest (G : Flow V) (parent : V → Option V) (b c : V) : Prop :=
  ∀ a, Above parent c a ↔ G.Common parent b a

/-- The links while the nodes are visited by rank and those before `k` have been visited. A node that
still waits may have a parent that is out of date, but only by nodes visited already (`pending`). -/
structure Converging (G : Flow V) (rank : V → ℕ) (parent : V → Option V) (k : ℕ) : Prop
    extends G.Tree rank parent where
  sound : ∀ {d x y : V}, parent x = some y → G.StrictlyDominates d x → G.Dominates d y
  down : ∀ {b p : V}, (parent b).isSome → G.Reachable p → rank p < rank b → (parent p).isSome
  filled : ∀ {p : V}, G.Reachable p → rank p < k → (parent p).isSome
  common : ∀ {b y a : V}, b ≠ G.root → parent b = some y → G.Common parent b a → Above parent y a
  pending : ∀ {b y x p : V}, b ≠ G.root → parent b = some y → Above parent y x → k ≤ rank x →
    G.edge p b → (parent p).isSome → rank p < rank b → Above parent p x
  done : ∀ {b y p : V}, b ≠ G.root → rank b < k → parent b = some y → G.edge p b →
    (parent p).isSome → rank p < rank b → Above parent p y

/-- Some predecessor with a parent comes before a node whose earlier nodes have one. -/
theorem Numbering.exists_pred (hN : G.Numbering rank) {b : V} (hb : G.Reachable b)
    (hroot : b ≠ G.root) (hfilled : ∀ p, G.Reachable p → rank p < rank b → (parent p).isSome) :
    ∃ p, G.edge p b ∧ (parent p).isSome ∧ rank p < rank b := by
  obtain ⟨p, hp, he, hlt⟩ := hN.descends hb hroot
  exact ⟨p, he, hfilled p hp hlt, hlt⟩

/-- The root comes first. -/
theorem Numbering.root_le (hN : G.Numbering rank) {b : V} (hb : G.Reachable b) :
    rank G.root ≤ rank b := by
  induction hn : rank b using Nat.strong_induction_on generalizing b with
  | _ n ih =>
    by_cases hroot : b = G.root
    · rw [← hn, hroot]
    · obtain ⟨p, hp, -, hlt⟩ := hN.descends hb hroot
      have := ih (rank p) (by omega) hp rfl
      omega

namespace Converging

variable {k : ℕ}

/-- Only the root has a parent at first. -/
theorem start [DecidableEq V] (hN : G.Numbering rank) :
    G.Converging rank (update (fun _ => none) G.root (some G.root)) 0 := by
  -- only the root has a parent at first
  have honly : ∀ {x y : V}, update (fun _ => none) G.root (some G.root) x = some y →
      x = G.root ∧ y = G.root := by
    intro x y h
    by_cases hx : x = G.root
    · rw [hx, update_self] at h
      exact ⟨hx, (some.inj h).symm⟩
    · rw [update_of_ne hx] at h
      cases h
  have hroot : update (fun _ => none) G.root (some G.root) G.root = some G.root :=
    update_self ..
  refine { root := hroot, lt := ?_, closed := ?_, reachable := ?_, sound := ?_, down := ?_,
           filled := fun _ h => absurd h (Nat.not_lt_zero _), common := ?_, pending := ?_,
           done := fun _ h => absurd h (Nat.not_lt_zero _) }
  · intro x y hx h
    exact absurd (honly h).1 hx
  · intro x y h
    rw [(honly h).2, hroot]
    rfl
  · intro x y h
    rw [(honly h).1]
    exact reachable_root
  · intro d x y h hd
    obtain ⟨rfl, rfl⟩ := honly h
    exact hd.1
  · intro b p hb hp hlt
    obtain ⟨y, hy⟩ := isSome_iff_exists.mp hb
    have := hN.root_le hp
    rw [(honly hy).1] at hlt
    omega
  · intro b y a hb h
    exact absurd (honly h).1 hb
  · intro b y x p hb h
    exact absurd (honly h).1 hb

/-- A dominator is above what it dominates. -/
theorem above_of_dominates (h : G.Converging rank parent k) {d w : V} (hw : (parent w).isSome)
    (hd : G.Dominates d w) : Above parent w d := by
  induction hn : rank w using Nat.strong_induction_on generalizing w with
  | _ n ih =>
    by_cases hdw : d = w
    · rw [hdw]
      exact Above.refl w
    · obtain ⟨y, hy⟩ := isSome_iff_exists.mp hw
      have hroot : w ≠ G.root := by
        rintro rfl
        exact hdw hd.eq_root
      have hlt := h.lt hroot hy
      exact Above.of_parent hy
        (ih (rank y) (by omega) (h.closed hy) (h.sound hy ⟨hd, hdw⟩) rfl)

/-- A dominator dominates the nodes between it and what it dominates. -/
theorem dominates_between (h : G.Converging rank parent k) {d p c : V} (hd : G.Dominates d p)
    (hpc : Above parent p c) (hcd : Above parent c d) : G.Dominates d c := by
  induction hpc using Relation.ReflTransGen.head_induction_on with
  | refl => exact hd
  | @head b y hstep hyc ih =>
    by_cases hdb : d = b
    · have hbc : Above parent b c := Above.of_parent hstep hyc
      rw [hdb] at hcd
      have hbc' : b = c := h.eq_of_rank_le hcd (h.rank_le hbc)
      rw [← hbc']
      exact hd
    · exact ih (h.sound hstep ⟨hd, hdb⟩)

/-- The parent of a node only moves up. -/
theorem above_nearest (h : G.Converging rank parent k) {x c c₀ : V} (hroot : x ≠ G.root)
    (hc : G.Nearest parent x c) (hc₀ : parent x = some c₀) : Above parent c₀ c :=
  h.common hroot hc₀ ((hc c).mp (Above.refl c))

/-- The nearest common ancestor of the predecessors comes before the node. -/
theorem rank_nearest_lt (hN : G.Numbering rank) (h : G.Converging rank parent k) {x c : V}
    (hx : G.Reachable x) (hroot : x ≠ G.root) (hrank : rank x ≤ k) (hc : G.Nearest parent x c) :
    rank c < rank x ∧ (parent c).isSome := by
  obtain ⟨p, he, hp, hlt⟩ := hN.exists_pred hx hroot
    fun p hp hlt => h.filled hp (hlt.trans_le hrank)
  have hpc : Above parent p c := (hc c).mp (Above.refl c) p he hp
  exact ⟨(h.rank_le hpc).trans_lt hlt, h.isSome_of_above hp hpc⟩

section Visit

variable [DecidableEq V] {x c : V}

section

variable (hN : G.Numbering rank) (h : G.Converging rank parent k) (hx : G.Reachable x) (hroot : x ≠ G.root)
include hN h hx hroot

/-- Giving a node its parent keeps the tree. -/
theorem visit_tree (hrank : rank x ≤ k) (hc : G.Nearest parent x c) : G.Tree rank (update parent x (some c)) := by
  obtain ⟨hlt, hcsome⟩ := h.rank_nearest_lt hN hx hroot hrank hc
  have hsome : ∀ {z : V}, (parent z).isSome → (update parent x (some c) z).isSome := by
    intro z hz
    by_cases hzx : z = x
    · rw [hzx, update_self]
      rfl
    · rwa [update_of_ne hzx]
  refine ⟨?_, ?_, ?_, ?_⟩
  · rw [update_of_ne (Ne.symm hroot), h.root]
  · intro z y hz hy
    by_cases hzx : z = x
    · rw [hzx, update_self] at hy
      rw [hzx, ← some.inj hy]
      exact hlt
    · rw [update_of_ne hzx] at hy
      exact h.lt hz hy
  · intro z y hy
    by_cases hzx : z = x
    · rw [hzx, update_self] at hy
      rw [← some.inj hy]
      exact hsome hcsome
    · rw [update_of_ne hzx] at hy
      exact hsome (h.closed hy)
  · intro z y hy
    by_cases hzx : z = x
    · rw [hzx]
      exact hx
    · rw [update_of_ne hzx] at hy
      exact h.reachable hy

/-- After the visit nothing new is above a node that had a parent. -/
theorem above_of_visit (hrank : rank x ≤ k) (hc : G.Nearest parent x c) {w a : V} (hw : (parent w).isSome)
    (ha : Above (update parent x (some c)) w a) : Above parent w a := by
  induction ha using Relation.ReflTransGen.head_induction_on with
  | refl => exact Above.refl a
  | @head b y hstep _ ih =>
    by_cases hb : b = x
    · rw [hb, update_self] at hstep
      cases hstep
      rw [hb] at hw ⊢
      obtain ⟨c₀, hc₀⟩ := isSome_iff_exists.mp hw
      have hcsome := (h.rank_nearest_lt hN hx hroot hrank hc).2
      exact Above.of_parent hc₀ ((h.above_nearest hroot hc hc₀).trans (ih hcsome))
    · rw [update_of_ne hb] at hstep
      exact Above.of_parent hstep (ih (h.closed hstep))

/-- One node is visited. -/
theorem visit (hrank : rank x = k) (hc : G.Nearest parent x c) :
    G.Converging rank (update parent x (some c)) (k + 1) := by
  have htree := h.visit_tree hN hx hroot hrank.le hc
  have hlt := (h.rank_nearest_lt hN hx hroot hrank.le hc).1
  have hagree : ∀ z, z ≠ x → parent z = update parent x (some c) z :=
    fun z hz => (update_of_ne hz ..).symm
  have hagree' : ∀ z, z ≠ x → update parent x (some c) z = parent z :=
    fun z hz => update_of_ne hz ..
  have hsub : ∀ {w a : V}, (parent w).isSome → Above (update parent x (some c)) w a →
      Above parent w a :=
    fun hw ha => h.above_of_visit hN hx hroot hrank.le hc hw ha
  have hsome : ∀ {z : V}, (parent z).isSome → (update parent x (some c) z).isSome := by
    intro z hz
    by_cases hzx : z = x
    · rw [hzx, update_self]
      rfl
    · rwa [update_of_ne hzx]
  have hsome_of : ∀ {z : V}, z ≠ x → (update parent x (some c) z).isSome →
      (parent z).isSome := by
    intro z hz h'
    rwa [update_of_ne hz] at h'
  -- below the rank of `x` no chain passes `x`
  have hlow : ∀ {w a : V}, rank w < k → Above parent w a →
      Above (update parent x (some c)) w a := by
    intro w a hw ha
    refine Tree.above_of_not_above hagree (fun hwx => ?_) ha
    have := h.rank_le hwx
    omega
  have hcommon : ∀ {b a : V}, G.Common (update parent x (some c)) b a →
      G.Common parent b a :=
    fun hb p he hp => hsub hp (hb p he (hsome hp))
  refine { htree with sound := ?_, down := ?_, filled := ?_, common := ?_, pending := ?_, done := ?_ }
  · intro d z y hy hd
    by_cases hzx : z = x
    · rw [hzx, update_self] at hy
      cases hy
      rw [hzx] at hd
      have hdc : Above parent c d := (hc d).mpr fun p he hp =>
        h.above_of_dominates hp (hd.pred he (h.reachable_of_isSome hp))
      obtain ⟨p, he, hp, -⟩ := hN.exists_pred hx hroot
        fun p hp hlt => h.filled hp (hlt.trans_le hrank.le)
      exact h.dominates_between (hd.pred he (h.reachable_of_isSome hp))
        ((hc c).mp (Above.refl c) p he hp) hdc
    · rw [update_of_ne hzx] at hy
      exact h.sound hy hd
  · intro b p hb hp hpb
    by_cases hbx : b = x
    · rw [hbx, hrank] at hpb
      exact hsome (h.filled hp hpb)
    · exact hsome (h.down (hsome_of hbx hb) hp hpb)
  · intro p hp hpk
    by_cases hpx : p = x
    · rw [hpx, update_self]
      rfl
    · refine hsome (h.filled hp ?_)
      have : rank p ≠ k := fun heq => hpx (hN.inj hp hx (heq.trans hrank.symm))
      omega
  · intro b y a hb hy ha
    by_cases hbx : b = x
    · rw [hbx, update_self] at hy
      cases hy
      rw [hbx] at ha
      exact hlow (by omega) ((hc a).mpr (hcommon ha))
    · rw [update_of_ne hbx] at hy
      have hya : Above parent y a := h.common hb hy (hcommon ha)
      by_cases hyx : Above parent y x
      · by_cases hax : rank a ≤ rank x
        · -- `x` waits on the chain of `b`, so it is on the chain of an earlier predecessor too
          obtain ⟨p, he, hp, hpb⟩ := hN.exists_pred (h.reachable hy) hb
            fun p hp hlt => h.down (by rw [hy]; rfl) hp hlt
          have hpx := h.pending hb hy hyx hrank.ge he hp hpb
          have hxa := htree.above_of_rank_le (h.above_of_agree hagree le_rfl hpx)
            (ha p he (hsome hp)) hax
          exact (h.above_of_agree hagree le_rfl hyx).trans hxa
        · exact h.above_of_agree hagree (by omega) hya
      · exact Tree.above_of_not_above hagree hyx hya
  · intro b y z p hb hy hyz hz he hp hpb
    by_cases hbx : b = x
    · rw [hbx, update_self] at hy
      cases hy
      have := htree.rank_le hyz
      omega
    · rw [update_of_ne hbx] at hy
      have hp' : (parent p).isSome := h.down (by rw [hy]; rfl) (htree.reachable_of_isSome hp) hpb
      have hyz' := htree.above_of_agree hagree' (by omega) hyz
      exact h.above_of_agree hagree (by omega) (h.pending hb hy hyz' (by omega) he hp' hpb)
  · intro b y p hb hbk hy he hp hpb
    by_cases hbx : b = x
    · rw [hbx, update_self] at hy
      cases hy
      rw [hbx] at he hpb
      exact hlow (by omega) ((hc c).mp (Above.refl c) p he
        (h.filled (htree.reachable_of_isSome hp) (by omega)))
    · rw [update_of_ne hbx] at hy
      have : rank b ≠ k :=
        fun heq => hbx (hN.inj (h.reachable hy) hx (heq.trans hrank.symm))
      exact hlow (by omega) (h.done hb (by omega) hy he
        (h.filled (htree.reachable_of_isSome hp) (by omega)) hpb)

end

end Visit

/-- The root is passed over. -/
theorem skip_root (hN : G.Numbering rank) (h : G.Converging rank parent k) (hrank : rank G.root = k) :
    G.Converging rank parent (k + 1) := by
  have hne : ∀ {b : V}, G.Reachable b → b ≠ G.root → rank b < k + 1 → rank b < k := by
    intro b hb hroot hlt
    have : rank b ≠ k := fun heq => hroot (hN.inj hb reachable_root (heq.trans hrank.symm))
    omega
  refine { h with filled := ?_, pending := ?_, done := ?_ }
  · intro p hp hlt
    by_cases hroot : p = G.root
    · rw [hroot, h.root]
      rfl
    · exact h.filled hp (hne hp hroot hlt)
  · intro b y x p hb hy hyx hx
    exact h.pending hb hy hyx (by omega)
  · intro b y p hb hlt hy
    exact h.done hb (hne (h.reachable hy) hb hlt) hy

/-- After the last node the next round starts. -/
theorem restart (h : G.Converging rank parent k) (hall : ∀ {b : V}, G.Reachable b → rank b < k) :
    G.Converging rank parent 0 :=
  { h with
    filled := fun _ hlt => absurd hlt (Nat.not_lt_zero _)
    pending := fun hb hy hyx _ he hp hpb =>
      (h.done hb (hall (h.reachable hy)) hy he hp hpb).trans hyx
    done := fun _ hlt => absurd hlt (Nat.not_lt_zero _) }

/-- When no visit changes a parent, the nodes above a node are its dominators. -/
theorem above_iff_dominates (h : G.Converging rank parent k)
    (hstable : ∀ {b : V}, G.Reachable b → b ≠ G.root → ∃ y, parent b = some y ∧ G.Nearest parent b y)
    {a b : V} (hb : G.Reachable b) : Above parent b a ↔ G.Dominates a b := by
  have hsome : ∀ {b : V}, G.Reachable b → (parent b).isSome := by
    intro b hb
    by_cases hroot : b = G.root
    · rw [hroot, h.root]
      rfl
    · obtain ⟨y, hy, -⟩ := hstable hb hroot
      rw [hy]
      rfl
  constructor
  · refine fun ha => ⟨hb, fun l hl => ?_⟩
    -- along the path every node has `a` above it until `a` is met
    induction hl with
    | root =>
      rw [h.above_root ha]
      exact mem_singleton_self _
    | @step p b l hp he ih =>
      by_cases hroot : b = G.root
      · rw [hroot] at ha ⊢
        rw [h.above_root ha]
        exact .head _
      · obtain ⟨y, hy, hnear⟩ := hstable hb hroot
        rcases ha.eq_or with rfl | ⟨c, hc, hca⟩
        · exact .head _
        · rw [hy] at hc
          cases hc
          exact mem_cons_of_mem _
            (ih hp.reachable ((hnear a).mp hca p he (hsome hp.reachable)))
  · exact fun hd => h.above_of_dominates (hsome hb) hd

end Converging

end Flow

end Mettle.Lib

import Mettle.Ir.DominatorsOrder

/-!
# The immediate dominators

The two fingers meet at the nearest common ancestor, so a visit links a block to the nearest common
ancestor of its predecessors. Every change moves a parent up the tree, hence the rounds end, and the
tree they end with is that of the dominators.
-/

open List Function

namespace Mettle.Ir.Dom

open Mettle.Lib Mettle.Lib.Flow

variable {g : FlowGraph} {order : List ℕ} {idom : ℕ → Option ℕ}

variable {b a fuel : ℕ}

/-- A reachable block has a place in the order. -/
theorem IsOrder.idxOf_lt (ho : IsOrder g order) (hb : g.flow.Reachable b) : order.idxOf b < order.length :=
  idxOf_lt_length_of_mem (ho.mem.mpr hb)

/-- Comparing indices is comparing places. -/
theorem IsOrder.indexLt_iff (ho : IsOrder g order) (ha : g.flow.Reachable a) (hb : g.flow.Reachable b) :
    indexLt (rpoIndex order a) (rpoIndex order b) = true ↔ order.idxOf a < order.idxOf b := by
  rw [rpoIndex_eq ho.nodup, rpoIndex_eq ho.nodup, if_pos (ho.mem.mpr ha), if_pos (ho.mem.mpr hb)]
  simp [indexLt]

/-- A finger climbs until it is not behind the other, and no common ancestor is lost. -/
theorem climb_spec (ho : IsOrder g order) (ht : g.flow.Tree order.idxOf idom) (ha : (idom a).isSome)
    (hb : (idom b).isSome) (hfuel : order.length ≤ fuel) :
    ∃ c, climb (rpoIndex order) idom fuel a b = some c ∧ (idom c).isSome ∧
      order.idxOf c ≤ order.idxOf a ∧ order.idxOf c ≤ order.idxOf b ∧
      ∀ z, Above idom c z ∧ Above idom b z ↔ Above idom a z ∧ Above idom b z := by
  have hreach : ∀ {x : ℕ}, (idom x).isSome → g.flow.Reachable x := ht.reachable_of_isSome
  let Inv : ℕ → Prop := fun c => (idom c).isSome ∧ order.idxOf c ≤ order.idxOf a ∧
    ∀ z, Above idom c z ∧ Above idom b z ↔ Above idom a z ∧ Above idom b z
  have hbody : ∀ c, Inv c → indexLt (rpoIndex order b) (rpoIndex order c) = true →
      ∃ c', idom c = some c' ∧ Inv c' ∧ order.idxOf c' < order.idxOf c := by
    rintro c ⟨hc, hca, hz⟩ hcond
    rw [ho.indexLt_iff (hreach hb) (hreach hc)] at hcond
    obtain ⟨c', hc'⟩ := Option.isSome_iff_exists.mp hc
    have hroot : c ≠ g.flow.root := by
      rintro rfl
      have := ho.numbering.root_le (hreach hb)
      omega
    have hlt := ht.lt hroot hc'
    refine ⟨c', hc', ⟨ht.closed hc', by omega, fun z => ?_⟩, hlt⟩
    rw [← ht.above_inter_parent hcond hc', hz]
  obtain ⟨c, hc, ⟨hsome, hca, hz⟩, hstop⟩ :=
    loop_total hbody ⟨ha, le_rfl, fun _ => Iff.rfl⟩ ((ho.idxOf_lt (hreach ha)).trans_le hfuel)
  refine ⟨c, hc, hsome, hca, ?_, hz⟩
  by_contra hlt
  rw [(ho.indexLt_iff (hreach hb) (hreach hsome)).mpr (by omega)] at hstop
  cases hstop

/-- The two fingers meet at the nearest common ancestor. -/
theorem intersect_spec (ho : IsOrder g order) (ht : g.flow.Tree order.idxOf idom) (ha : (idom a).isSome)
    (hb : (idom b).isSome) (hfuel : 2 * order.length ≤ fuel) :
    ∃ c, intersect (rpoIndex order) idom fuel a b = some c ∧ (idom c).isSome ∧
      ∀ z, Above idom c z ↔ Above idom a z ∧ Above idom b z := by
  have hreach : ∀ {x : ℕ}, (idom x).isSome → g.flow.Reachable x := ht.reachable_of_isSome
  -- the two fingers keep the common ancestors
  let Inv : ℕ × ℕ → Prop := fun s => (idom s.1).isSome ∧ (idom s.2).isSome ∧
    ∀ z, Above idom s.1 z ∧ Above idom s.2 z ↔ Above idom a z ∧ Above idom b z
  have hbody : ∀ s, Inv s → decide (s.1 ≠ s.2) = true → ∃ s', (do
          let a ← climb (rpoIndex order) idom fuel s.1 s.2
          let b ← climb (rpoIndex order) idom fuel s.2 a
          some (a, b)) = some s' ∧ Inv s' ∧
        order.idxOf s'.1 + order.idxOf s'.2 < order.idxOf s.1 + order.idxOf s.2 := by
    rintro ⟨x, y⟩ ⟨hx, hy, hz⟩ hne
    dsimp only at hx hy hz
    have hne : x ≠ y := by simpa using hne
    obtain ⟨x', hx', hxsome, hxx, hxy, hxz⟩ := climb_spec ho ht hx hy (by omega : order.length ≤ fuel)
    obtain ⟨y', hy', hysome, hyy, hyx, hyz⟩ :=
      climb_spec ho ht hy hxsome (by omega : order.length ≤ fuel)
    refine ⟨(x', y'), by simp [hx', hy'], ⟨hxsome, hysome, fun z => ?_⟩, ?_⟩
    · rw [← hz, ← hxz, And.comm, hyz, And.comm]
    · -- the ranks differ, so one of the fingers has moved
      have : order.idxOf x ≠ order.idxOf y :=
        fun h => hne (ho.numbering.inj (hreach hx) (hreach hy) h)
      show order.idxOf x' + order.idxOf y' < order.idxOf x + order.idxOf y
      omega
  -- each climb lowers the rank of a finger, so the fuel is enough
  have hsum : order.idxOf a + order.idxOf b < fuel := by
    have := ho.idxOf_lt (hreach ha)
    have := ho.idxOf_lt (hreach hb)
    omega
  obtain ⟨⟨c, d⟩, hs, ⟨hc, hd, hz⟩, hstop⟩ :=
    loop_total hbody (s := (a, b)) ⟨ha, hb, fun _ => Iff.rfl⟩ hsum
  obtain rfl : c = d := by simpa using hstop
  refine ⟨c, ?_, hc, fun z => ?_⟩
  · rw [intersect, hs]
    rfl
  · rw [← hz, and_self]

/-- The edges into a block are those from its predecessors. -/
theorem edge_iff_mem_predecessors {p : ℕ} (hb : b < g.blocks.length) :
    g.flow.edge p b ↔ p < g.blocks.length ∧ p ∈ (g.blocks.getD b default).predecessors := by
  constructor
  · rintro ⟨hp, -, hmem⟩
    exact ⟨hp, (g.mirrored p hp b hb).mp hmem⟩
  · rintro ⟨hp, hmem⟩
    exact ⟨hp, hb, (g.mirrored p hp b hb).mpr hmem⟩

/-- The candidate after some of the predecessors: their nearest common ancestor, if one has a parent. -/
def Candidate (blocks : List BasicBlock) (idom : ℕ → Option ℕ) (preds : List ℕ) : Option ℕ → Prop
  | none => ∀ p ∈ preds, p < blocks.length → idom p = none
  | some c => (idom c).isSome ∧
    ∀ z, Above idom c z ↔ ∀ p ∈ preds, p < blocks.length → (idom p).isSome → Above idom p z

/-- The meet over the predecessors is the nearest common ancestor of those with a parent. -/
theorem meet_spec (ho : IsOrder g order) (ht : g.flow.Tree order.idxOf idom) (hfuel : 2 * order.length ≤ fuel)
    {preds : List ℕ} {c : Option ℕ} (hc : Candidate g.blocks idom preds c) (p : ℕ) :
    ∃ c', meet g.blocks (rpoIndex order) idom fuel c p = some c' ∧ Candidate g.blocks idom (preds ++ [p]) c' := by
  unfold meet
  -- a predecessor without a parent yet does not take part
  by_cases hskip : g.blocks.length ≤ p ∨ idom p = none
  · rw [if_pos hskip]
    have hpass : ∀ P : Prop, p < g.blocks.length → (idom p).isSome → P := by
      intro P hlt hsome
      rcases hskip with h | h
      · omega
      · rw [h] at hsome
        cases hsome
    refine ⟨c, rfl, ?_⟩
    cases c with
    | none =>
      intro q hq hlt
      rcases mem_append.mp hq with hq | hq
      · exact hc q hq hlt
      · obtain rfl := mem_singleton.mp hq
        exact hskip.resolve_left (by omega)
    | some c =>
      refine ⟨hc.1, fun z => ?_⟩
      rw [hc.2 z, forall_mem_append]
      refine ⟨fun h => ⟨h, fun q hq hlt hsome => ?_⟩, fun h => h.1⟩
      rw [mem_singleton.mp hq] at hlt hsome
      exact hpass _ hlt hsome
  · rw [if_neg hskip]
    rw [not_or, not_le, ← ne_eq, Option.ne_none_iff_isSome] at hskip
    -- the first predecessor gives the block, every later one is intersected with it
    have hone : ∀ z, (∀ q ∈ [p], q < g.blocks.length → (idom q).isSome → Above idom q z) ↔
        Above idom p z := by
      intro z
      rw [forall_mem_singleton]
      exact ⟨fun h => h hskip.1 hskip.2, fun h _ _ => h⟩
    cases c with
    | none =>
      refine ⟨some p, rfl, hskip.2, fun z => ?_⟩
      rw [forall_mem_append, hone]
      refine ⟨fun h => ⟨fun q hq hlt hsome => ?_, h⟩, fun h => h.2⟩
      rw [hc q hq hlt] at hsome
      cases hsome
    | some c =>
      obtain ⟨c', hc', hsome, hz⟩ := intersect_spec ho ht hskip.2 hc.1 hfuel
      refine ⟨some c', by simp [hc'], hsome, fun z => ?_⟩
      rw [hz, forall_mem_append, hone, hc.2 z, And.comm]

/-- The candidate of a block with a predecessor that has a parent is the nearest common ancestor. -/
theorem candidate_spec (ho : IsOrder g order) (ht : g.flow.Tree order.idxOf idom) (hfuel : 2 * order.length ≤ fuel)
    (hb : b < g.blocks.length) (hp : ∃ p, g.flow.edge p b ∧ (idom p).isSome) :
    ∃ c, candidate g.blocks (rpoIndex order) idom fuel b = some (some c) ∧ g.flow.Nearest idom b c := by
  have hfold : ∀ (rest preds : List ℕ) (c : Option ℕ), Candidate g.blocks idom preds c →
      ∃ c', rest.foldlM (meet g.blocks (rpoIndex order) idom fuel) c = some c' ∧
        Candidate g.blocks idom (preds ++ rest) c' := by
    intro rest
    induction rest with
    | nil =>
      intro preds c hc
      exact ⟨c, rfl, by simpa using hc⟩
    | cons p rest ih =>
      intro preds c hc
      obtain ⟨c', hc', hcand⟩ := meet_spec ho ht hfuel hc p
      obtain ⟨c'', hc'', hcand'⟩ := ih _ _ hcand
      refine ⟨c'', ?_, by simpa using hcand'⟩
      rw [foldlM_cons, hc']
      exact hc''
  obtain ⟨c, hc, hcand⟩ := hfold (g.blocks.getD b default).predecessors [] none (fun p hp => absurd hp not_mem_nil)
  cases c with
  | none =>
    obtain ⟨p, he, hsome⟩ := hp
    have hmem := (edge_iff_mem_predecessors hb).mp he
    rw [hcand p hmem.2 hmem.1] at hsome
    cases hsome
  | some c =>
    refine ⟨c, hc, fun z => ?_⟩
    rw [hcand.2 z]
    constructor
    · intro h p he hsome
      have hmem := (edge_iff_mem_predecessors hb).mp he
      exact h p hmem.2 hmem.1 hsome
    · intro h p hmem hlt hsome
      exact h p ((edge_iff_mem_predecessors hb).mpr ⟨hlt, hmem⟩) hsome

/-- How far down the parents are; a block without a parent counts as the farthest. -/
def parentHeight (order : List ℕ) (idom : ℕ → Option ℕ) : ℕ :=
  ∑ b ∈ order.toFinset, (idom b).elim order.length order.idxOf

/-- A parent that moves up lowers the height. -/
theorem parentHeight_update_lt {c : ℕ} (hb : b ∈ order) (hlt : order.idxOf c < (idom b).elim order.length order.idxOf) :
    parentHeight order (update idom b (some c)) < parentHeight order idom := by
  refine Finset.sum_lt_sum (fun x _ => ?_) ⟨b, mem_toFinset.mpr hb, ?_⟩
  · by_cases hx : x = b
    · rw [hx, update_self]
      exact hlt.le
    · rw [update_of_ne hx]
  · rw [update_self]
    exact hlt

/-- Nothing to change at a block. -/
def Settled (g : FlowGraph) (idom : ℕ → Option ℕ) (b : ℕ) : Prop :=
  b ≠ g.entry → ∃ y, idom b = some y ∧ g.flow.Nearest idom b y

/-- A visit finds its block settled, or moves a parent up. -/
theorem visit_spec (ho : IsOrder g order) (hfuel : 2 * order.length ≤ fuel) {s : (ℕ → Option ℕ) × Bool}
    (hb : b ∈ order) (h : g.flow.Converging order.idxOf s.1 (order.idxOf b)) :
    ∃ s', visit g.blocks g.entry (rpoIndex order) fuel s b = some s' ∧
      g.flow.Converging order.idxOf s'.1 (order.idxOf b + 1) ∧
      (s' = s ∧ Settled g s.1 b ∨ s'.2 = true ∧ parentHeight order s'.1 < parentHeight order s.1) := by
  have hreach := ho.mem.mp hb
  rw [visit]
  by_cases hroot : b = g.entry
  · rw [if_pos hroot]
    refine ⟨s, rfl, ?_, .inl ⟨rfl, fun hne => absurd hroot hne⟩⟩
    rw [hroot] at h ⊢
    exact h.skip_root ho.numbering rfl
  · rw [if_neg hroot]
    obtain ⟨p, he, hp, -⟩ := ho.numbering.exists_pred hreach hroot fun p hp hlt => h.filled hp hlt
    obtain ⟨c, hc, hnear⟩ := candidate_spec ho h.toTree hfuel (lt_of_reachable hreach) ⟨p, he, hp⟩
    have hvisit := h.visit ho.numbering hreach hroot rfl hnear
    rw [hc]
    show ∃ s', (if s.1 b = some c then some s else some (update s.1 b (some c), true)) = some s' ∧ _
    by_cases hsame : s.1 b = some c
    · rw [if_pos hsame]
      rw [← hsame, update_eq_self] at hvisit
      exact ⟨s, rfl, hvisit, .inl ⟨rfl, fun _ => ⟨c, hsame, hnear⟩⟩⟩
    · rw [if_neg hsame]
      refine ⟨_, rfl, hvisit, .inr ⟨rfl, parentHeight_update_lt hb ?_⟩⟩
      have hlt := (h.rank_nearest_lt ho.numbering hreach hroot le_rfl hnear).1
      cases hold : s.1 b with
      | none => exact hlt.trans (ho.idxOf_lt hreach)
      | some c₀ =>
        -- the new parent is above the old one
        have habove := h.above_nearest hroot hnear hold
        by_contra hge
        refine hsame ?_
        rw [hold, h.eq_of_rank_le habove (not_lt.mp hge)]

/-- A round finds every block settled, or moves a parent up. -/
theorem round_spec (ho : IsOrder g order) (hfuel : 2 * order.length ≤ fuel) (pre rest : List ℕ)
    (hsplit : order = pre ++ rest) (s : (ℕ → Option ℕ) × Bool) (h : g.flow.Converging order.idxOf s.1 pre.length) :
    ∃ s', rest.foldlM (visit g.blocks g.entry (rpoIndex order) fuel) s = some s' ∧
      g.flow.Converging order.idxOf s'.1 order.length ∧
      (s' = s ∧ (∀ b ∈ rest, Settled g s.1 b) ∨ s'.2 = true ∧ parentHeight order s'.1 < parentHeight order s.1) := by
  induction rest generalizing pre s with
  | nil =>
    rw [append_nil] at hsplit
    refine ⟨s, rfl, ?_, .inl ⟨rfl, nofun⟩⟩
    rw [hsplit] at h ⊢
    exact h
  | cons b rest ih =>
    have hb : b ∈ order := by
      rw [hsplit]
      exact mem_append_right _ mem_cons_self
    have hplace : order.idxOf b = pre.length := by
      have hnodup := ho.nodup
      rw [hsplit] at hnodup ⊢
      have hpre : b ∉ pre := fun hmem =>
        (nodup_append.mp hnodup).2.2 b hmem b (.head _) rfl
      rw [idxOf_append_of_notMem hpre, idxOf_cons_self, Nat.add_zero]
    rw [← hplace] at h
    obtain ⟨s₁, hs₁, hconv, hout⟩ := visit_spec ho hfuel hb h
    obtain ⟨s₂, hs₂, hconv₂, hout₂⟩ := ih (pre ++ [b]) (by rw [hsplit, append_assoc]; rfl) s₁
      (by rwa [length_append, ← hplace])
    refine ⟨s₂, ?_, hconv₂, ?_⟩
    · rw [foldlM_cons, hs₁]
      exact hs₂
    · rcases hout with ⟨rfl, hset⟩ | ⟨hflag, hlt⟩
      · exact hout₂.imp_left fun ⟨heq, hall⟩ => ⟨heq, forall_mem_cons.mpr ⟨hset, hall⟩⟩
      · rcases hout₂ with ⟨rfl, -⟩ | ⟨hflag₂, hlt₂⟩
        · exact .inr ⟨hflag, hlt⟩
        · exact .inr ⟨hflag₂, hlt₂.trans hlt⟩

/-- The tree of the immediate dominators. -/
structure IsDomTree (g : FlowGraph) (order : List ℕ) (idom : ℕ → Option ℕ) : Prop where
  converging : g.flow.Converging order.idxOf idom 0
  settled : ∀ {b : ℕ}, g.flow.Reachable b → b ≠ g.entry →
    ∃ y, idom b = some y ∧ g.flow.Nearest idom b y

/-- The rounds end, with the tree of the immediate dominators. -/
theorem immediate_spec (ho : IsOrder g order)
    (hfuel : 2 * order.length + 2 * (order.length * order.length) + 1 < fuel) :
    ∃ idom, immediate g.blocks g.entry fuel order = some idom ∧ IsDomTree g order idom := by
  have hfuel₂ : 2 * order.length ≤ fuel := by omega
  -- the parents converge from round to round, and a round without a change has met every predecessor
  let Inv : (ℕ → Option ℕ) × Bool → Prop := fun s =>
    g.flow.Converging order.idxOf s.1 0 ∧ (s.2 = false → ∀ b ∈ order, Settled g s.1 b)
  have hbody : ∀ s, Inv s → s.2 = true →
      ∃ s', order.foldlM (visit g.blocks g.entry (rpoIndex order) fuel) (s.1, false) = some s' ∧
        Inv s' ∧ 2 * parentHeight order s'.1 + s'.2.toNat < 2 * parentHeight order s.1 + s.2.toNat := by
    rintro s ⟨hs, -⟩ hchanged
    obtain ⟨s', hs', hconv, hout⟩ := round_spec ho hfuel₂ [] order rfl (s.1, false) hs
    have hrestart := hconv.restart ho.idxOf_lt
    refine ⟨s', hs', ⟨hrestart, ?_⟩, ?_⟩
    · intro hflag
      rcases hout with ⟨rfl, hall⟩ | ⟨htrue, -⟩
      · exact hall
      · rw [htrue] at hflag
        cases hflag
    · rw [hchanged]
      have := Bool.toNat_le s'.2
      rcases hout with ⟨rfl, -⟩ | ⟨-, hlt⟩
      · simp
      · have hlt : parentHeight order s'.1 < parentHeight order s.1 := hlt
        omega
  have hstart : Inv (update (fun _ => none) g.entry (some g.entry), true) :=
    ⟨Converging.start ho.numbering, nofun⟩
  -- each block can move up its order only so often
  have hbound : parentHeight order (update (fun _ => none) g.entry (some g.entry)) ≤ order.length * order.length := by
    have hcard : order.toFinset.card ≤ order.length := toFinset_card_le order
    refine (Finset.sum_le_card_nsmul _ _ order.length fun b _ => ?_).trans
      (by rw [smul_eq_mul]; exact Nat.mul_le_mul_right _ hcard)
    by_cases hb : b = g.entry
    · rw [hb, update_self]
      exact idxOf_le_length
    · rw [update_of_ne hb]
      exact le_rfl
  have henough : 2 * parentHeight order (update (fun _ => none) g.entry (some g.entry)) + true.toNat < fuel := by
    simp only [Bool.toNat_true]
    omega
  obtain ⟨s, hs, ⟨hconv, hset⟩, hstop⟩ := loop_total hbody hstart henough
  refine ⟨s.1, ?_, hconv, fun hb hne => hset hstop _ (ho.mem.mpr hb) hne⟩
  rw [immediate, hs]
  rfl

namespace IsDomTree

/-- The reachable blocks are those with a parent. -/
theorem isSome_iff (h : IsDomTree g order idom) {b : ℕ} : (idom b).isSome ↔ g.flow.Reachable b := by
  refine ⟨h.converging.reachable_of_isSome, fun hb => ?_⟩
  by_cases hne : b = g.entry
  · rw [hne]
    exact Option.isSome_of_eq_some h.converging.root
  · obtain ⟨y, hy, -⟩ := h.settled hb hne
    rw [hy]
    rfl

/-- In the tree the blocks above are the dominators. -/
theorem above_iff (h : IsDomTree g order idom) {a b : ℕ} (hb : g.flow.Reachable b) :
    Above idom b a ↔ g.flow.Dominates a b :=
  h.converging.above_iff_dominates h.settled hb

end IsDomTree

end Mettle.Ir.Dom

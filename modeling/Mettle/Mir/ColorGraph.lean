import Mettle.Lib.Order
import Mettle.Mir.Color
import Mettle.Mir.FactsSound

/-!
# The interference graph and its merges

The graph has an edge wherever one register is written while another of its class holds a value, and
coalescing keeps that: two registers with an edge are never merged, their representatives have an edge,
and the mask of a representative lies inside the mask of each of its members.
-/

open List Function

namespace Mettle.Mir

open Mettle.Lib MirFunction

variable {fn : MirFunction} {cfg : Cfg} {st st' st₀ : ColorState}

namespace ColorState

/-! ## Adding edges -/

/-- An undirected graph without loops on the registers to be coloured. -/
structure GraphOk (fn : MirFunction) (st : ColorState) : Prop where
  valid : ∀ v, st.colorable v = true → fn.valid v = true
  symm : ∀ a b, b ∈ st.inter a → a ∈ st.inter b
  irrefl : ∀ a, a ∉ st.inter a
  colorable : ∀ a b, b ∈ st.inter a → st.colorable b = true

/-- `st'` is `st` with more edges. -/
structure Grows (fn : MirFunction) (st st' : ColorState) : Prop where
  rest : ∃ inter degree, st' = { st with inter := inter, degree := degree }
  mono : ∀ a, st.inter a ⊆ st'.inter a
  ok : st.GraphOk fn → st'.GraphOk fn

theorem Grows.refl (st : ColorState) : st.Grows fn st :=
  ⟨⟨st.inter, st.degree, rfl⟩, fun _ => Finset.Subset.refl _, id⟩

variable {st'' : ColorState} {a b v u : ℤ} {i k : ℕ}

theorem Grows.trans (h : st.Grows fn st') (h' : st'.Grows fn st'') : st.Grows fn st'' := by
  obtain ⟨inter, degree, rfl⟩ := h.rest
  obtain ⟨inter', degree', rfl⟩ := h'.rest
  exact ⟨⟨inter', degree', rfl⟩, fun a => (h.mono a).trans (h'.mono a), h'.ok ∘ h.ok⟩

/-- Additions do not change what is to be colored. -/
theorem Grows.colorable (h : st.Grows fn st') : st'.colorable = st.colorable := by
  obtain ⟨inter, degree, rfl⟩ := h.rest
  rfl

theorem Grows.vregs (h : st.Grows fn st') : st'.vregs = st.vregs := by
  obtain ⟨inter, degree, rfl⟩ := h.rest
  rfl

/-- A fold of steps that add edges, and what each of them establishes for good. -/
theorem Grows.foldl {β : Type*} {f : ColorState → β → ColorState} {Q : β → ColorState → Prop}
    (l : List β) (hstep : ∀ s, Grows fn st s → ∀ b ∈ l, Grows fn s (f s b) ∧ (GraphOk fn st → Q b (f s b)))
    (hkeep : ∀ b s s', Grows fn s s' → Q b s → Q b s') :
    Grows fn st (l.foldl f st) ∧ (GraphOk fn st → ∀ b ∈ l, Q b (l.foldl f st)) := by
  have hfold : ∀ l' ⊆ l, ∀ s, Grows fn st s →
      Grows fn s (l'.foldl f s) ∧ (GraphOk fn st → ∀ b ∈ l', Q b (l'.foldl f s)) := by
    intro l'
    induction l' with
    | nil => exact fun _ s _ => ⟨.refl s, fun _ => nofun⟩
    | cons b rest ih =>
      intro hsub s hs
      rw [cons_subset] at hsub
      obtain ⟨hgrow, hQ⟩ := hstep s hs b hsub.1
      obtain ⟨hrest, hQrest⟩ := ih hsub.2 _ (hs.trans hgrow)
      refine ⟨hgrow.trans hrest, fun hok c hc => ?_⟩
      rcases mem_cons.mp hc with rfl | hc
      · exact hkeep c _ _ hrest (hQ hok)
      · exact hQrest hok c hc
  exact hfold l (Subset.refl l) st (.refl st)

/-- An edge is entered at both of its ends. -/
theorem interAdd_inter (h : st.GraphOk fn) (hab : a ≠ b) (x : ℤ) : (st.interAdd a b).inter x =
      if x = a then insert b (st.inter a) else if x = b then insert a (st.inter b) else st.inter x := by
  rw [interAdd]
  split
  · rename_i hor
    have hmem := hor.resolve_left hab
    split
    · rename_i hx
      rw [hx, Finset.insert_eq_of_mem hmem]
    split
    · rename_i hx
      rw [hx, Finset.insert_eq_of_mem (h.symm a b hmem)]
    · rfl
  · by_cases hxb : x = b
    · subst hxb
      simp [hab.symm]
    · by_cases hxa : x = a
      · subst hxa
        simp [hab]
      · simp [hxa, hxb]

/-- An edge between two registers to be coloured. -/
theorem interAdd_grows (ha : st.colorable a = true) (hb : st.colorable b = true) : st.Grows fn (st.interAdd a b) := by
  have hrest : ∃ inter degree, st.interAdd a b = { st with inter := inter, degree := degree } := by
    rw [interAdd]
    split
    · exact ⟨st.inter, st.degree, rfl⟩
    · exact ⟨_, _, rfl⟩
  have hcolorable : (st.interAdd a b).colorable = st.colorable := by
    obtain ⟨inter, degree, heq⟩ := hrest
    rw [heq]
  -- an edge from a register to itself is not added
  by_cases hab : a = b
  · have heq : st.interAdd a b = st := by rw [interAdd, if_pos (.inl hab)]
    rw [heq]
    exact .refl st
  refine ⟨hrest, fun x => ?_, fun h => ⟨?_, fun x y => ?_, fun x => ?_, fun x y => ?_⟩⟩
  · rw [interAdd]
    split
    · exact Finset.Subset.refl _
    · by_cases hxb : x = b
      · subst hxb
        simp [Ne.symm hab, Finset.subset_insert]
      · by_cases hxa : x = a
        · subst hxa
          simp [hab, Finset.subset_insert]
        · simp [hxa, hxb]
  · rw [hcolorable]
    exact h.valid
  · have := h.symm x y
    simp only [interAdd_inter h hab]
    grind
  · have := h.irrefl x
    simp only [interAdd_inter h hab]
    grind
  · have := h.colorable x y
    simp only [interAdd_inter h hab]
    grind

theorem mem_interAdd (h : st.GraphOk fn) (hab : a ≠ b) : b ∈ (st.interAdd a b).inter a := by
  rw [interAdd_inter h hab, if_pos rfl]
  exact Finset.mem_insert_self _ _

/-- The numbers that the loops go over are the valid registers. -/
theorem mem_vregIds : v ∈ fn.vregIds ↔ fn.valid v = true := by
  simp only [vregIds, mem_map, mem_range, valid, decide_eq_true_eq]
  constructor
  · rintro ⟨n, hn, rfl⟩
    exact ⟨Int.natCast_nonneg n, Int.ofNat_lt.mpr hn⟩
  · rintro ⟨h₁, h₂⟩
    exact ⟨v.toNat, by omega, Int.toNat_of_nonneg h₁⟩

/-- `mir_color_add_live_edges` adds edges, and all it should. -/
theorem addLiveEdges_spec (fn : MirFunction) {d : ℤ} (hd : st.colorable d = true) (live : Finset ℤ) :
    Grows fn st (st.addLiveEdges fn d live) ∧ (GraphOk fn st → ∀ v ∈ live, st.colorable v = true → v ≠ d →
        (st.vregs d).rclass = (st.vregs v).rclass → v ∈ (st.addLiveEdges fn d live).inter d) := by
  let Q : ℤ → ColorState → Prop := fun v s => v ∈ live → st.colorable v = true → v ≠ d →
    (st.vregs d).rclass = (st.vregs v).rclass → v ∈ s.inter d
  have hstep : ∀ s, Grows fn st s → ∀ v ∈ fn.vregIds,
      Grows fn s (if v ∈ live ∧ s.colorable v ∧ (s.vregs d).rclass = (s.vregs v).rclass then s.interAdd d v else s) ∧
      (GraphOk fn st → Q v (if v ∈ live ∧ s.colorable v ∧ (s.vregs d).rclass = (s.vregs v).rclass
        then s.interAdd d v else s)) := by
    intro s hs v _
    rw [hs.colorable, hs.vregs]
    split
    · rename_i h
      exact ⟨interAdd_grows (by rw [hs.colorable]; exact hd) (by rw [hs.colorable]; exact h.2.1),
        fun hok _ _ hne _ => mem_interAdd (hs.ok hok) hne.symm⟩
    · rename_i h
      exact ⟨.refl s, fun hok hv hcolor _ hclass => absurd ⟨hv, hcolor, hclass⟩ h⟩
  obtain ⟨hgrows, hall⟩ := Grows.foldl fn.vregIds hstep fun v s s' hss hQ hv hcolor hne hclass =>
    hss.mono d (hQ hv hcolor hne hclass)
  exact ⟨hgrows, fun hok v hv hcolor => hall hok v (mem_vregIds.mpr (hok.valid v hcolor)) hv hcolor⟩

/-! ## The interference graph -/

/-- The edges of the instruction at `i`: what it writes against what is held over it. -/
def EdgesAt (fn : MirFunction) (i : ℕ) (st : ColorState) : Prop :=
  ∀ d ∈ fn.defs i, ∀ v, HeldOver fn i v → st.colorable d = true → st.colorable v = true →
    (st.vregs d).rclass = (st.vregs v).rclass → v ∈ st.inter d

/-- The edges of an instruction stay as the graph grows. -/
theorem EdgesAt.mono (h : EdgesAt fn i st) (hgrows : Grows fn st st') : EdgesAt fn i st' := by
  intro d hd v hheld
  rw [hgrows.colorable, hgrows.vregs]
  exact fun hcd hcv hclass => hgrows.mono d (h d hd v hheld hcd hcv hclass)

/-- One instruction of the walk. -/
theorem addEdgesAt_spec {live defd : Finset ℤ} (hlive : ∀ v, LiveAfter fn i v → v ∈ live)
    (hdefd : ∀ v, WrittenAfter fn i v → v ∈ defd) (hok : GraphOk fn st) :
    Grows fn st (addEdgesAt fn live defd i st) ∧ EdgesAt fn i (addEdgesAt fn live defd i st) := by
  rw [addEdgesAt]
  split
  · rename_i h
    obtain ⟨hgrows, hall⟩ := addLiveEdges_spec fn h.2 (live ∩ defd)
    refine ⟨hgrows, fun d hd v hheld => ?_⟩
    rw [hgrows.colorable, hgrows.vregs]
    rw [MirFunction.defs, if_pos h.1, Finset.mem_singleton] at hd
    subst hd
    exact fun _ hcv hclass => hall hok v (Finset.mem_inter.mpr
      ⟨hlive v hheld.liveAfter, hdefd v (.inr hheld.writtenAt)⟩) hcv hheld.ne_defs hclass
  · rename_i h
    refine ⟨.refl st, fun d hd v _ hcd => ?_⟩
    rw [MirFunction.defs] at hd
    split at hd
    · rename_i hvalid
      rw [Finset.mem_singleton.mp hd] at hcd
      exact absurd ⟨hvalid, hcd⟩ h
    · exact absurd hd (Finset.notMem_empty _)

/-- The registers that must be apart at entry. -/
def EdgesAtEntry (fn : MirFunction) (st : ColorState) : Prop :=
  ∀ v ∈ fn.entryDefs, ∀ w ∈ fn.entryDefs, LiveAt fn 0 v → LiveAt fn 0 w → v ≠ w →
    st.colorable v = true → st.colorable w = true → (st.vregs v).rclass = (st.vregs w).rclass →
    w ∈ st.inter v

theorem EdgesAtEntry.mono (h : EdgesAtEntry fn st) (hgrows : Grows fn st st') :
    EdgesAtEntry fn st' := by
  intro v hv w hw hlv hlw hne
  rw [hgrows.colorable, hgrows.vregs]
  exact fun hcv hcw hclass => hgrows.mono v (h v hv w hw hlv hlw hne hcv hcw hclass)

/-- What is live and written at entry is in the sets of the first block. -/
theorem mem_entrySets (hbt : fn.NoBitTest) (h : mirCfgBuild fn = some cfg) (hv : v ∈ fn.entryDefs)
    (hlive : LiveAt fn 0 v) : v ∈ cfg.live.val 0 ∩ cfg.defd.join 0 := by
  obtain ⟨hne, hlink, hsolveLive, hsolveDefd⟩ := mirCfgBuild_eq_some h
  obtain ⟨-, hsolved⟩ := Dataflow.solve_spec (livenessFlow_above hbt hlink) hsolveLive
  obtain ⟨hrunning, -⟩ := Dataflow.solve_spec (definednessFlow_above hbt hne hlink) hsolveDefd
  have hzero : fn.leader 0 = true := by simp [leader]
  have hmem := mem_through_of_liveAt hbt hlink hsolved hlive hne
  rw [rest_leader hzero, blockOf_of_leader hzero, ← localSets_through] at hmem
  refine Finset.mem_inter.mpr ⟨?_, hrunning.seed_le 0 ?_⟩
  · rw [(hsolved 0 (mem_reverse.mpr (mem_leaders.mpr ⟨hne, hzero⟩))).val]
    exact hmem
  · simpa [seedEntryDefs] using hv

/-- `mir_color_add_exact_edges` puts an edge wherever a write meets a held value. -/
theorem addExactEdges_spec (hbt : fn.NoBitTest) (h : mirCfgBuild fn = some cfg) (hok : GraphOk fn st) :
    Grows fn st (st.addExactEdges fn cfg) ∧ (∀ i < fn.insnCount, EdgesAt fn i (st.addExactEdges fn cfg)) ∧
      EdgesAtEntry fn (st.addExactEdges fn cfg) := by
  have hvisit : Visits fn (addEdgesAt fn) (fun s => Grows fn st s) (EdgesAt fn) := by
    intro i hi live defd hlive hdefd s hs
    obtain ⟨hgrows, hedges⟩ := addEdgesAt_spec hlive hdefd (hs.ok hok)
    exact ⟨hs.trans hgrows, hedges, fun j hj => hj.mono hgrows⟩
  -- the edges at the writes, from the cursor, then those at the entry
  obtain ⟨hgrows, hedges⟩ := cursorVisit_spec hbt h hvisit (.refl st)
  rw [addExactEdges]
  generalize cursorVisit fn cfg (addEdgesAt fn) st = s at hgrows hedges
  let both := cfg.live.val 0 ∩ cfg.defd.join 0
  -- after the fold every pair live at the entry is joined
  let Q : ℤ → ColorState → Prop := fun a s' => a ∈ both → s.colorable a = true →
    ∀ v ∈ both, s.colorable v = true → v ≠ a → (s.vregs a).rclass = (s.vregs v).rclass →
    v ∈ s'.inter a
  have hstep : ∀ s', Grows fn s s' → ∀ a ∈ fn.vregIds,
      Grows fn s' (if s'.colorable a ∧ a ∈ both then s'.addLiveEdges fn a both else s') ∧
      (GraphOk fn s → Q a (if s'.colorable a ∧ a ∈ both then s'.addLiveEdges fn a both else s')) := by
    intro s' hs' a _
    split
    · rename_i hcond
      obtain ⟨hadd, hall⟩ := addLiveEdges_spec fn hcond.1 both
      refine ⟨hadd, fun hoks _ _ v hv hcv hne hclass => ?_⟩
      exact hall (hs'.ok hoks) v hv (by rw [hs'.colorable]; exact hcv) hne (by rw [hs'.vregs]; exact hclass)
    · rename_i hcond
      refine ⟨.refl s', fun _ ha hca => absurd ⟨?_, ha⟩ hcond⟩
      rw [hs'.colorable]
      exact hca
  obtain ⟨hentry, hall⟩ := Grows.foldl fn.vregIds hstep
    fun a s₁ s₂ hgrow hQ ha hca v hv hcv hne hclass => hgrow.mono a (hQ ha hca v hv hcv hne hclass)
  have hoks := hgrows.ok hok
  refine ⟨hgrows.trans hentry, fun i hi => (hedges i hi).mono hentry, ?_⟩
  intro v hv w hw hlv hlw hne
  rw [hentry.colorable, hentry.vregs]
  exact fun hcv hcw hclass => hall hoks v (mem_vregIds.mpr (hoks.valid v hcv))
    (mem_entrySets hbt h hv hlv) hcv w (mem_entrySets hbt h hw hlw) hcw hne.symm hclass

/-- The edges for narrowing moves are additions. -/
theorem addNarrowingEdges_grows (fn : MirFunction) (st : ColorState) : Grows fn st (st.addNarrowingEdges fn) := by
  refine (Grows.foldl (Q := fun _ _ => True) fn.vregIds (fun s hs v _ => ⟨?_, fun _ => trivial⟩)
    fun _ _ _ _ _ => trivial).1
  dsimp only
  split
  · exact .refl s
  · rename_i hcond
    simp only [not_or, Decidable.not_not] at hcond
    exact interAdd_grows hcond.1 hcond.2.2.2

/-! ## Merging two registers -/

/-- What merging does to the edges between the removed register and one neighbor. -/
theorem mergeEdge_inter {x : ℤ} (hxu : x ≠ u) (huv : u ≠ v) (hsymm : x ∈ st.inter u → u ∈ st.inter x) :
    (mergeEdge u v st x).inter = update (update st.inter u
      (insert x (st.inter u))) x (insert u ((st.inter x).erase v)) := by
  rw [mergeEdge]
  rw [update_of_ne hxu.symm]
  split
  · rename_i hmem
    rw [Finset.insert_eq_of_mem hmem, update_eq_self,
      Finset.insert_eq_of_mem (Finset.mem_erase.mpr ⟨huv, hsymm hmem⟩)]
  · funext y
    by_cases hyx : y = x
    · subst hyx
      simp [hxu]
    · by_cases hyu : y = u
      · subst hyu
        simp [hxu.symm]
      · simp [hyx, hyu]

/-- Nothing but edges and degrees changes. -/
theorem mergeEdge_rest (u v : ℤ) (st : ColorState) (x : ℤ) :
    ∃ inter degree, mergeEdge u v st x = { st with inter := inter, degree := degree } := by
  rw [mergeEdge]
  split
  · exact ⟨_, _, rfl⟩
  · exact ⟨_, _, rfl⟩

/-- The rows after some neighbours of `v` were handed to `u`. -/
theorem mergeEdges_fold (huv : u ≠ v) (l : List ℤ) (hnodup : l.Nodup) (hu : u ∉ l) (st : ColorState)
    (hsymm : ∀ x ∈ l, x ∈ st.inter u → u ∈ st.inter x) :
    (∃ inter degree, l.foldl (mergeEdge u v) st = { st with inter := inter, degree := degree }) ∧
      ∀ y, (l.foldl (mergeEdge u v) st).inter y =
        if y = u then st.inter u ∪ l.toFinset
        else if y ∈ l then insert u ((st.inter y).erase v) else st.inter y := by
  -- on the neighbours of `v` still to move to `u`
  induction l generalizing st with
  | nil =>
    refine ⟨⟨st.inter, st.degree, rfl⟩, fun y => ?_⟩
    by_cases hy : y = u <;> simp [hy]
  | cons x rest ih =>
    obtain ⟨hx, hnodup⟩ := nodup_cons.mp hnodup
    rw [mem_cons, not_or] at hu
    have hxu : x ≠ u := Ne.symm hu.1
    have hinter := mergeEdge_inter hxu huv (hsymm x (mem_cons_self ..))
    have hrow : ∀ y ∈ rest, (mergeEdge u v st x).inter y = st.inter y := by
      intro y hy
      have hyx : y ≠ x := ne_of_mem_of_not_mem hy hx
      have hyu : y ≠ u := ne_of_mem_of_not_mem hy hu.2
      rw [hinter, update_of_ne hyx, update_of_ne hyu]
    have hrowu : (mergeEdge u v st x).inter u = insert x (st.inter u) := by
      rw [hinter, update_of_ne hxu.symm, update_self]
    obtain ⟨⟨inter, degree, heq⟩, hall⟩ := ih hnodup hu.2 (mergeEdge u v st x) (by
      intro y hy hmem
      rw [hrowu] at hmem
      rw [hrow y hy]
      refine hsymm y (.tail _ hy) ((Finset.mem_insert.mp hmem).resolve_left ?_)
      rintro rfl
      exact hx hy)
    rw [foldl_cons]
    refine ⟨?_, fun y => ?_⟩
    · obtain ⟨inter', degree', heq'⟩ := mergeEdge_rest u v st x
      rw [heq, heq']
      exact ⟨inter, degree, rfl⟩
    · rw [hall y]
      by_cases hyu : y = u
      · rw [if_pos hyu, if_pos hyu, hrowu, toFinset_cons, Finset.insert_union, Finset.union_insert]
      · rw [if_neg hyu, if_neg hyu]
        by_cases hyx : y = x
        · subst hyx
          rw [if_neg hx, if_pos (mem_cons_self ..), hinter, update_self]
        · have hiff : y ∈ x :: rest ↔ y ∈ rest := by simp [hyx]
          by_cases hy : y ∈ rest
          · rw [if_pos hy, if_pos (hiff.mpr hy), hrow y hy]
          · rw [if_neg hy, if_neg (fun h => hy (hiff.mp h)), hinter, update_of_ne hyx, update_of_ne hyu]

theorem nodup_vregIds (fn : MirFunction) : fn.vregIds.Nodup :=
  Nodup.map (fun _ _ h => Int.ofNat.inj h) nodup_range

/-- The rows after `mir_coalesce_merge_edges`. -/
theorem mergeEdges_spec (hok : GraphOk fn st) (huv : u ≠ v) (hedge : v ∉ st.inter u) :
    (∃ inter degree, st.mergeEdges fn u v = { st with inter := inter, degree := degree }) ∧
      ∀ y, (st.mergeEdges fn u v).inter y =
        if y = v then ∅
        else if y = u then st.inter u ∪ st.inter v
        else if y ∈ st.inter v then insert u ((st.inter y).erase v) else st.inter y := by
  have hmem : ∀ x, x ∈ st.neighbours fn v ↔ x ∈ st.inter v := by
    intro x
    simp only [neighbours, mem_filter, mem_vregIds, decide_eq_true_eq, and_iff_right_iff_imp]
    exact fun hx => hok.valid x (hok.colorable v x hx)
  have hfinset : (st.neighbours fn v).toFinset = st.inter v := by
    ext x
    rw [mem_toFinset, hmem]
  have hu : u ∉ st.neighbours fn v := by
    rw [hmem]
    exact fun h => hedge (hok.symm v u h)
  obtain ⟨⟨inter, degree, heq⟩, hrows⟩ := mergeEdges_fold huv (st.neighbours fn v)
    ((nodup_vregIds fn).filter _) hu st fun x _ => hok.symm u x
  rw [mergeEdges]
  refine ⟨⟨_, _, by rw [heq]⟩, fun y => ?_⟩
  dsimp only
  by_cases hyv : y = v
  · rw [if_pos hyv, hyv, update_self]
  · rw [if_neg hyv, update_of_ne hyv, hrows y, hfinset]
    simp only [hmem]

/-- The registers still to be coloured. -/
def colorables (fn : MirFunction) (st : ColorState) : Finset ℤ :=
  fn.vregIds.toFinset.filter fun v => st.colorable v = true

/-- What is colored are the registers marked so. -/
theorem mem_colorables (h : GraphOk fn st) : v ∈ st.colorables fn ↔ st.colorable v = true := by
  simp only [colorables, Finset.mem_filter, mem_toFinset, mem_vregIds, and_iff_right_iff_imp]
  exact h.valid v

/-- What merging keeps, against the state `st₀` before the first merge, after `k` merges. -/
structure Coalesced (fn : MirFunction) (st₀ st : ColorState) (k : ℕ) : Prop where
  ok : GraphOk fn st
  rooted : Rooted st.rep k
  fuel : k + (st.colorables fn).card ≤ fn.vregCount
  repValid : ∀ v, fn.valid v = true → fn.valid (st.rep v) = true
  root : ∀ v, st.colorable v = true → st.rep v = v
  kept : ∀ v, st.colorable v = true → st.removed v = false
  shape : ∀ v, (st.vregs v).SameShape (st₀.vregs v)
  slot : ∀ v, (st.vregs v).inRegister = (st₀.vregs v).inRegister ∧
    (st.vregs v).spillOffset = (st₀.vregs v).spillOffset
  colorable : ∀ v, st.colorable v = true → st₀.colorable v = true
  find_colorable : ∀ v, st₀.colorable v = true → st.colorable (st.find fn v) = true
  find_class : ∀ v, st₀.colorable v = true →
    (st₀.vregs (st.find fn v)).rclass = (st₀.vregs v).rclass
  find_bytes : ∀ v, st₀.colorable v = true →
    spillBytes (st₀.vregs (st.find fn v)) = spillBytes (st₀.vregs v)
  find_other : ∀ v, st₀.colorable v = false → st.find fn v = v
  mask : ∀ v, st₀.colorable v = true → st.mask (st.find fn v) ⊆ st₀.mask v
  edges : ∀ u v, v ∈ st₀.inter u → st.find fn v ∈ st.inter (st.find fn u)

/-- Before any merge each register stands for itself. -/
theorem find_of_rep_eq (fn : MirFunction) (h : st.rep = fun v => v) (v : ℤ) : st.find fn v = v := by
  rw [find, h]
  split
  · exact iterate_fixed rfl _
  · rfl

/-- Before the first merge. -/
theorem Coalesced.start (hok : GraphOk fn st) (hrep : st.rep = fun v => v)
    (hremoved : ∀ v, st.removed v = false) : Coalesced fn st st 0 := by
  have hfind := find_of_rep_eq fn hrep
  refine ⟨hok, hrep ▸ rooted_id, ?_, fun v => by rw [hrep]; exact id, fun v _ => by rw [hrep],
    fun v _ => hremoved v, fun v => .refl _, fun v => ⟨rfl, rfl⟩, fun v => id, fun v => ?_,
    fun v _ => by rw [hfind], fun v _ => by rw [hfind], fun v _ => hfind v, fun v _ => ?_,
    fun u v h => ?_⟩
  · rw [Nat.zero_add]
    refine (Finset.card_filter_le _ _).trans ((toFinset_card_le _).trans ?_)
    simp [vregIds]
  · rw [hfind]
    exact id
  · rw [hfind]
  · rw [hfind, hfind]
    exact h

theorem find_of_not_valid (h : fn.valid v = false) : st.find fn v = v := by
  rw [find, if_neg (by simp [h])]

/-- A register is represented by a register. -/
theorem Coalesced.find_valid (h : Coalesced fn st₀ st k) (hv : fn.valid v = true) :
    fn.valid (st.find fn v) = true := by
  rw [find, if_pos hv]
  generalize fn.vregCount = n
  induction n with
  | zero => exact hv
  | succ n ih =>
    rw [iterate_succ_apply']
    exact h.repValid _ ih

theorem find_of_root (h : st.rep v = v) : st.find fn v = v := by
  rw [find]
  split
  · exact iterate_fixed h _
  · rfl

/-- The search ends at a root. -/
theorem Coalesced.find_find (h : Coalesced fn st₀ st k) (v : ℤ) : st.find fn (st.find fn v) = st.find fn v := by
  by_cases hv : fn.valid v = true
  · refine find_of_root ?_
    have hfuel := h.fuel
    rw [find, if_pos hv]
    exact h.rooted.root (by omega) v
  · have hroot : st.find fn v = v := find_of_not_valid (by simpa using hv)
    rw [hroot, hroot]

/-- A merge renames one root. -/
theorem find_merge (h : Coalesced fn st₀ st k) (huv : u ≠ v) (hu : st.colorable u = true) (hv : st.colorable v = true)
    (hrep : st'.rep = update st.rep v u) (w : ℤ) : st'.find fn w = if st.find fn w = v then u else st.find fn w := by
  have hcard : 1 < (st.colorables fn).card := Finset.one_lt_card.mpr
    ⟨u, (mem_colorables h.ok).mpr hu, v, (mem_colorables h.ok).mpr hv, huv⟩
  have hfuel := h.fuel
  rw [find, find]
  split
  · rw [hrep]
    exact h.rooted.iterate_link (h.root u hu) huv (h.root v hv) (by omega) w
  · rename_i hw
    rw [if_neg]
    rintro rfl
    exact hw (h.ok.valid _ hv)

/-- The graph after a merge is a graph again. -/
theorem merge_graphOk (hok : GraphOk fn st) (huv : u ≠ v) (hedge : v ∉ st.inter u) (hu : st.colorable u = true)
    {inter : ℤ → Finset ℤ}
    (hinter : ∀ y, inter y = if y = v then ∅ else if y = u then st.inter u ∪ st.inter v else if y ∈ st.inter v then insert u ((st.inter y).erase v) else st.inter y)
    (hst : st'.inter = inter) (hcolorable : st'.colorable = update st.colorable v false) : GraphOk fn st' := by
  have hsymm := hok.symm
  have hirrefl := hok.irrefl
  have hcol := hok.colorable
  refine ⟨fun w hw => ?_, fun a b => ?_, fun a => ?_, fun a b => ?_⟩
  · rw [hcolorable] at hw
    by_cases hwv : w = v
    · subst hwv
      simp at hw
    · rw [update_of_ne hwv] at hw
      exact hok.valid w hw
  · rw [hst, hinter, hinter]
    grind
  · rw [hst, hinter]
    grind
  · rw [hst, hinter, hcolorable, update_apply]
    grind

/-- A merged register keeps the shape of the one that stays. -/
theorem mergeVreg_shape (a b : Vreg) : (mergeVreg a b).SameShape a := ⟨rfl, rfl, rfl, rfl, rfl⟩

/-- One merge. -/
theorem Coalesced.merge (h : Coalesced fn st₀ st k) (huv : u ≠ v) (hu : st.colorable u = true)
    (hv : st.colorable v = true) (hedge : v ∉ st.inter u) (hclass : (st.vregs u).rclass = (st.vregs v).rclass)
    (hbytes : spillBytes (st₀.vregs u) = spillBytes (st₀.vregs v)) :
    Coalesced fn st₀ (st.merge fn u v) (k + 1) ∧
      ((st.merge fn u v).colorables fn).card + 1 = (st.colorables fn).card := by
  obtain ⟨⟨inter, degree, heq⟩, hrows⟩ := mergeEdges_spec h.ok huv hedge
  -- the merge changes the row of `u`, the representative of `v`, and the flags of `v`
  have hrep : (st.merge fn u v).rep = update st.rep v u := by
    rw [ColorState.merge, heq]
  have hcolorable : (st.merge fn u v).colorable = update st.colorable v false := by
    rw [ColorState.merge, heq]
  have hmask : (st.merge fn u v).mask = update st.mask u (st.mask u ∩ st.mask v) := by
    rw [ColorState.merge, heq]
  have hinter : (st.merge fn u v).inter = (st.mergeEdges fn u v).inter := rfl
  have hremoved : (st.merge fn u v).removed = update st.removed v true := by
    rw [ColorState.merge, heq]
  have hvregs : (st.merge fn u v).vregs = update st.vregs u (mergeVreg (st.vregs u) (st.vregs v)) := by
    rw [ColorState.merge, heq]
  have hfind := find_merge h huv hu hv hrep
  have hok := merge_graphOk h.ok huv hedge hu hrows hinter hcolorable
  -- the measure: one colourable register fewer
  have hcard : ((st.merge fn u v).colorables fn).card + 1 = (st.colorables fn).card := by
    have herase : (st.merge fn u v).colorables fn = (st.colorables fn).erase v := by
      ext w
      rw [mem_colorables hok, Finset.mem_erase, mem_colorables h.ok, hcolorable, update_apply]
      by_cases hw : w = v <;> simp [hw]
    rw [herase, Finset.card_erase_add_one ((mem_colorables h.ok).mpr hv)]
  refine ⟨⟨hok, ?_, ?_, ?_, ?_, ?_, ?_, ?_, ?_, ?_, ?_, ?_, ?_, ?_, ?_⟩, hcard⟩
  · rw [hrep]
    exact h.rooted.link (h.root u hu) huv (h.root v hv)
  · have := h.fuel
    omega
  · intro w hw
    rw [hrep, update_apply]
    split
    · exact h.ok.valid u hu
    · exact h.repValid w hw
  · intro w hw
    rw [hcolorable, update_apply] at hw
    rw [hrep, update_apply]
    split at hw
    · cases hw
    · rename_i hwv
      rw [if_neg hwv]
      exact h.root w hw
  · intro w hw
    rw [hcolorable, update_apply] at hw
    rw [hremoved, update_apply]
    split at hw
    · cases hw
    · rename_i hwv
      rw [if_neg hwv]
      exact h.kept w hw
  · intro w
    rw [hvregs, update_apply]
    split
    · rename_i hwu
      subst hwu
      exact (mergeVreg_shape _ _).trans (h.shape w)
    · exact h.shape w
  · intro w
    rw [hvregs, update_apply]
    split
    · rename_i hwu
      subst hwu
      exact h.slot w
    · exact h.slot w
  · intro w hw
    rw [hcolorable, update_apply] at hw
    split at hw
    · cases hw
    · exact h.colorable w hw
  · intro w hw
    rw [hfind, hcolorable, update_apply]
    have := h.find_colorable w hw
    grind
  · intro w hw
    rw [hfind]
    split
    · rename_i hfw
      have := h.find_class w hw
      rw [hfw, ← (h.shape v).rclass, ← hclass, (h.shape u).rclass] at this
      exact this
    · exact h.find_class w hw
  · intro w hw
    rw [hfind]
    split
    · rename_i hfw
      rw [hbytes, ← hfw]
      exact h.find_bytes w hw
    · exact h.find_bytes w hw
  · intro w hw
    rw [hfind, h.find_other w hw, if_neg]
    rintro rfl
    rw [h.colorable w hv] at hw
    cases hw
  · intro w hw
    rw [hfind, hmask]
    have hsub := h.mask w hw
    split
    · rename_i hfw
      rw [update_self]
      rw [hfw] at hsub
      exact Finset.inter_subset_right.trans hsub
    · rw [update_apply]
      split
      · rename_i hfw
        rw [hfw] at hsub
        exact Finset.inter_subset_left.trans hsub
      · exact hsub
  · intro a b hab
    have hmem := h.edges a b hab
    have hsymm := h.ok.symm
    have hirrefl := h.ok.irrefl
    rw [hfind, hfind, hinter, hrows]
    by_cases ha : st.find fn a = v <;> by_cases hb : st.find fn b = v <;>
      by_cases ha' : st.find fn a = u <;> simp only [ha, hb, ha', if_true, if_false] <;> grind

/-! ## Merging until nothing changes -/

/-- A copy between registers that are to be coloured and have one class keeps the size of their spill
slot. -/
def CopiesKeepBytes (fn : MirFunction) (st : ColorState) : Prop :=
  ∀ i, (fn.insn i).isCopy = true → st.colorable (fn.insn i).dst.vreg = true →
    st.colorable (fn.insn i).a.vreg = true →
    (st.vregs (fn.insn i).dst.vreg).rclass = (st.vregs (fn.insn i).a.vreg).rclass →
    spillBytes (st.vregs (fn.insn i).dst.vreg) = spillBytes (st.vregs (fn.insn i).a.vreg)

/-- One attempt either does nothing or merges the representatives of the ends of the copy, which may
share a register. -/
theorem coalesceTry_cases (t : Target) (fn : MirFunction) (facts : RaFacts) (st : ColorState) (i : ℕ) :
    st.coalesceTry t fn facts i = (st, false) ∨
      ∃ d s, d = st.find fn (fn.insn i).dst.vreg ∧ s = st.find fn (fn.insn i).a.vreg ∧ d ≠ s ∧
        st.colorable d = true ∧ st.colorable s = true ∧ s ∉ st.inter d ∧
        (st.vregs d).rclass = (st.vregs s).rclass ∧
        (st.coalesceTry t fn facts i = (st.merge fn d s, true) ∨
          st.coalesceTry t fn facts i = (st.merge fn s d, true)) := by
  rw [coalesceTry]
  dsimp only
  split
  · exact .inl rfl
  rename_i hends
  split
  · exact .inl rfl
  rename_i hgraph
  split
  · exact .inl rfl
  simp only [not_or, Decidable.not_not] at hends hgraph
  obtain ⟨hne, -, -, hd, hs⟩ := hends
  split
  · split
    · exact .inl rfl
    · exact .inr ⟨_, _, rfl, rfl, hne, hd, hs, hgraph.2, hgraph.1, .inr rfl⟩
  · split
    · exact .inl rfl
    · exact .inr ⟨_, _, rfl, rfl, hne, hd, hs, hgraph.2, hgraph.1, .inl rfl⟩

/-- A register whose representative is colored was to be colored. -/
theorem Coalesced.colorable_of_find (h : Coalesced fn st₀ st k) (hv : st.colorable (st.find fn v) = true) :
    st₀.colorable v = true := by
  by_contra hnot
  rw [h.find_other v (by simpa using hnot)] at hv
  exact hnot (h.colorable v hv)

/-- An attempt keeps what merging keeps, and a merge leaves fewer registers to be coloured. -/
theorem Coalesced.coalesceTry (h : Coalesced fn st₀ st k) (hkeep : CopiesKeepBytes fn st₀) (t : Target)
    (facts : RaFacts) (hi : (fn.insn i).isCopy = true) :
    (∃ k', Coalesced fn st₀ (st.coalesceTry t fn facts i).1 k') ∧ ((st.coalesceTry t fn facts i).1.colorables fn).card
        + (if (st.coalesceTry t fn facts i).2 then 1 else 0) = (st.colorables fn).card := by
  rcases coalesceTry_cases t fn facts st i with
    heq | ⟨d, s, rfl, rfl, hne, hd, hs, hedge, hclass, heq⟩
  · rw [heq]
    exact ⟨⟨k, h⟩, rfl⟩
  have hd₀ := h.colorable_of_find hd
  have hs₀ := h.colorable_of_find hs
  have hclass₀ : (st₀.vregs (fn.insn i).dst.vreg).rclass = (st₀.vregs (fn.insn i).a.vreg).rclass := by
    rw [← h.find_class _ hd₀, ← h.find_class _ hs₀, ← (h.shape _).rclass, ← (h.shape _).rclass]
    exact hclass
  have hbytes : spillBytes (st₀.vregs (st.find fn (fn.insn i).dst.vreg))
      = spillBytes (st₀.vregs (st.find fn (fn.insn i).a.vreg)) := by
    rw [h.find_bytes _ hd₀, h.find_bytes _ hs₀]
    exact hkeep i hi hd₀ hs₀ hclass₀
  rcases heq with heq | heq
  · obtain ⟨hmerged, hcard⟩ := h.merge hne hd hs hedge hclass hbytes
    rw [heq]
    exact ⟨⟨k + 1, hmerged⟩, hcard⟩
  · obtain ⟨hmerged, hcard⟩ := h.merge hne.symm hs hd (fun hmem => hedge (h.ok.symm _ _ hmem)) hclass.symm hbytes.symm
    rw [heq]
    exact ⟨⟨k + 1, hmerged⟩, hcard⟩

/-- The loop of `mir_color_coalesce` stops with merged registers. -/
theorem untilStable_coalesce (t : Target) (facts : RaFacts) {copies : List ℕ}
    (hcopies : ∀ i ∈ copies, (fn.insn i).isCopy = true) (hkeep : CopiesKeepBytes fn st)
    (h : Coalesced fn st st 0) :
    ∃ st', untilStable (fun st i => st.coalesceTry t fn facts i) copies (fn.vregCount + 1) st
        = some st' ∧ ∃ k, Coalesced fn st st' k := by
  let Inv : ColorState → Prop := fun s => ∃ k, Coalesced fn st s k
  have hinv : ∀ s, ∀ i ∈ copies, Inv s → Inv (s.coalesceTry t fn facts i).1 :=
    fun s i hi ⟨k, hs⟩ => (hs.coalesceTry hkeep t facts (hcopies i hi)).1
  let merged : ColorState → ℕ := fun s => fn.vregCount - (s.colorables fn).card
  have hmono : ∀ s, ∀ i ∈ copies, Inv s → merged s ≤ merged (s.coalesceTry t fn facts i).1 := by
    rintro s i hi ⟨k, hs⟩
    have := (hs.coalesceTry hkeep t facts (hcopies i hi)).2
    simp only [merged]
    omega
  have hstrict : ∀ s, ∀ i ∈ copies, Inv s → (s.coalesceTry t fn facts i).2 = true →
      merged s < merged (s.coalesceTry t fn facts i).1 := by
    rintro s i hi ⟨k, hs⟩ hchanged
    have hcard := (hs.coalesceTry hkeep t facts (hcopies i hi)).2
    have hfuel := hs.fuel
    rw [if_pos hchanged] at hcard
    simp only [merged]
    omega
  have hbound : ∀ s, Inv s → merged s ≤ fn.vregCount := fun s _ => Nat.sub_le _ _
  have hstop : ∃ st', untilStable (fun st i => st.coalesceTry t fn facts i) copies (fn.vregCount + 1) st = some st' :=
    untilStable_stops hinv hmono hstrict hbound ⟨0, h⟩ (by omega)
  obtain ⟨st', hst'⟩ := hstop
  exact ⟨st', hst', untilStable_inv hinv ⟨0, h⟩ hst'⟩

/-- The state before the colouring, as far as the colours depend on it. -/
structure SameGraph (st st' : ColorState) : Prop where
  inter : st'.inter = st.inter
  mask : st'.mask = st.mask
  colorable : st'.colorable = st.colorable
  rep : st'.rep = st.rep
  removed : st'.removed = st.removed
  shape : ∀ v, (st'.vregs v).SameShape (st.vregs v)
  slot : ∀ v, (st'.vregs v).inRegister = (st.vregs v).inRegister ∧
    (st'.vregs v).spillOffset = (st.vregs v).spillOffset

/-- The search depends on the representatives only. -/
theorem SameGraph.find (h : SameGraph st st') (fn : MirFunction) : st'.find fn = st.find fn := by
  funext v
  rw [ColorState.find, ColorState.find, h.rep]

theorem SameGraph.refl (st : ColorState) : SameGraph st st :=
  ⟨rfl, rfl, rfl, rfl, rfl, fun _ => .refl _, fun _ => ⟨rfl, rfl⟩⟩

theorem SameGraph.trans (h : SameGraph st st') (h' : SameGraph st' st'') : SameGraph st st'' :=
  ⟨h'.inter.trans h.inter, h'.mask.trans h.mask, h'.colorable.trans h.colorable,
    h'.rep.trans h.rep, h'.removed.trans h.removed, fun v => (h'.shape v).trans (h.shape v),
    fun v => ⟨(h'.slot v).1.trans (h.slot v).1, (h'.slot v).2.trans (h.slot v).2⟩⟩

/-- What coalescing gives is kept by what keeps the graph. -/
theorem Coalesced.sameGraph (h : Coalesced fn st₀ st k) (hsame : SameGraph st st') : Coalesced fn st₀ st' k := by
  obtain ⟨hok, hrooted, hfuel, hvalid, hroot, hkept, hshape, hslot, hcol, hfc, hfclass, hfbytes,
    hother, hmask, hedges⟩ := h
  have hcolorables : st'.colorables fn = st.colorables fn := by
    rw [colorables, colorables, hsame.colorable]
  refine ⟨⟨?_, ?_, ?_, ?_⟩, ?_, ?_, ?_, ?_, ?_, fun v => (hsame.shape v).trans (hshape v),
    fun v => ⟨(hsame.slot v).1.trans (hslot v).1, (hsame.slot v).2.trans (hslot v).2⟩, ?_, ?_, ?_,
    ?_, ?_, ?_, ?_⟩
  · rw [hsame.colorable]
    exact hok.valid
  · rw [hsame.inter]
    exact hok.symm
  · rw [hsame.inter]
    exact hok.irrefl
  · rw [hsame.inter, hsame.colorable]
    exact hok.colorable
  · rw [hsame.rep]
    exact hrooted
  · rw [hcolorables]
    exact hfuel
  · rw [hsame.rep]
    exact hvalid
  · rw [hsame.rep, hsame.colorable]
    exact hroot
  · rw [hsame.removed, hsame.colorable]
    exact hkept
  · rw [hsame.colorable]
    exact hcol
  · rw [hsame.colorable, hsame.find]
    exact hfc
  · rw [hsame.find]
    exact hfclass
  · rw [hsame.find]
    exact hfbytes
  · rw [hsame.find]
    exact hother
  · rw [hsame.find, hsame.mask]
    exact hmask
  · rw [hsame.find, hsame.inter]
    exact hedges

/-- Rewriting the hints keeps the graph. -/
theorem rewriteHints_same (fn : MirFunction) (st : ColorState) : SameGraph st (st.rewriteHints fn) := by
  refine ⟨rfl, rfl, rfl, rfl, rfl, fun v => ?_, fun v => ?_⟩
  · simp only [rewriteHints]
    split
    · exact ⟨rfl, rfl, rfl, rfl, rfl⟩
    · exact .refl _
  · simp only [rewriteHints]
    split <;> exact ⟨rfl, rfl⟩

/-- An instruction after the merges: its registers renamed, or a copy whose ends got one name and that
was dropped. -/
inductive Renamed (f : ℤ → ℤ) (i j : Inst) : Prop
  | kept : j.op = i.op → j.uses = i.uses.map f → j.defs = f i.defs →
    (∀ sysv l, j.overwrites sysv l = i.overwrites sysv l) → Renamed f i j
  | dropped : i.isCopy = true → f i.dst.vreg = f i.a.vreg → j.op = .nop → Renamed f i j

theorem Renamed.refl (i : Inst) : Renamed (fun v => v) i i :=
  .kept rfl (map_id' _).symm rfl fun _ _ => rfl

/-- Renaming an operand. -/
theorem rewriteOperand_spec (fn : MirFunction) (st : ColorState) (o : Operand) :
    (st.rewriteOperand fn o).kind = o.kind ∧ (st.rewriteOperand fn o).phys = o.phys ∧
      (st.rewriteOperand fn o).rclass = o.rclass ∧
      (st.rewriteOperand fn o).vregs = o.vregs.map (st.find fn) ∧
      (o.kind = .vreg → (st.rewriteOperand fn o).vreg = st.find fn o.vreg) := by
  rw [rewriteOperand]
  split
  · rename_i hkind
    simp [Operand.vregs, hkind]
  · rename_i hkind
    simp [Operand.vregs, hkind]
  · rename_i hvreg hmem
    refine ⟨rfl, rfl, rfl, ?_, fun h => absurd h hvreg⟩
    rw [Operand.vregs]
    split
    · rename_i hkind
      exact absurd hkind hvreg
    · rename_i hkind
      exact absurd hkind hmem
    · rfl

/-- `mir_coalesce_rewrite` renames. -/
theorem rewriteInst_renamed (fn : MirFunction) (st : ColorState) (i : Inst) :
    Renamed (st.find fn) i (st.rewriteInst fn i) := by
  have hnone : st.find fn (-1) = -1 := find_of_not_valid (by simp [valid])
  rw [rewriteInst]
  split
  · rename_i hnop
    refine .kept rfl ?_ ?_ fun _ _ => rfl
    · simp [Inst.uses, hnop]
    · simp [Inst.defs, hnop, hnone]
  rename_i hnop
  -- an operand keeps its kind and names the representative of its register
  obtain ⟨hdk, hdp, hdc, hdv, hdr⟩ := rewriteOperand_spec fn st i.dst
  obtain ⟨hak, -, -, hav, har⟩ := rewriteOperand_spec fn st i.a
  obtain ⟨hbk, -, -, hbv, -⟩ := rewriteOperand_spec fn st i.b
  dsimp only
  split
  -- a copy between merged registers has become a hole
  · rename_i hcopy
    obtain ⟨hcopy, hsame⟩ := hcopy
    simp only [Inst.isCopy, decide_eq_true_eq, hdk, hak] at hcopy
    rw [hdr hcopy.2.1, har hcopy.2.2] at hsame
    exact .dropped (by simpa [Inst.isCopy] using hcopy) hsame rfl
  · refine .kept rfl ?_ ?_ fun sysv l => ?_
    · have hite : ∀ (c : Prop) [Decidable c] (l : List ℤ),
          (if c then l.map (st.find fn) else []) = (if c then l else []).map (st.find fn) := by
        intro c _ l
        split <;> rfl
      simp only [Inst.uses, hnop, if_false, hdk, hdv, hav, hbv, map_append, hite]
      rfl
    · simp only [Inst.defs, hdk]
      split
      · rename_i hdef
        exact hdr hdef.2
      · exact hnone.symm
    · cases l with
      | slot offset => rfl
      | reg rclass phys =>
        have hfixed : Inst.fixedGp { i with
            dst := st.rewriteOperand fn i.dst, a := st.rewriteOperand fn i.a,
            b := st.rewriteOperand fn i.b } = i.fixedGp := by
          simp only [Inst.fixedGp, hbk]
        rw [Bool.eq_iff_iff]
        cases rclass with
        | gp =>
          simp only [Inst.overwrites, Inst.gpClobbers, hfixed, hdk, hdp, hdc, decide_eq_true_eq]
          rfl
        | xmm =>
          simp only [Inst.overwrites, hdk, hdp, hdc, decide_eq_true_eq]
          rfl
        | vec => rfl

/-- The merges of `mir_color_graph`: the loop ends, and the instructions are those of the function with
the registers renamed to their representatives. -/
theorem merged_spec (t : Target) (facts : RaFacts) (hok : GraphOk fn st)
    (hrep : st.rep = fun v => v) (hremoved : ∀ v, st.removed v = false)
    (hkeep : CopiesKeepBytes fn st) :
    ∃ insns st' k, (if t.noCoalesce then some (fn, st) else st.coalesce t facts fn)
        = some ({ fn with insns := insns }, st') ∧ Coalesced fn st st' k ∧
      insns.length = fn.insns.length ∧
      ∀ i, Renamed (st'.find fn) (fn.insn i) (insns.getD i {}) := by
  have hstart := Coalesced.start hok hrep hremoved
  have hid : st.find fn = fun v => v := funext (find_of_rep_eq fn hrep)
  split
  · exact ⟨fn.insns, st, 0, rfl, hstart, rfl, fun i => hid ▸ .refl _⟩
  rw [coalesce]
  split
  · exact ⟨fn.insns, st, 0, rfl, hstart, rfl, fun i => hid ▸ .refl _⟩
  · have hcopies : ∀ i ∈ (range fn.insnCount).filter fun i => (fn.insn i).isCopy,
        (fn.insn i).isCopy = true := fun i hi => (mem_filter.mp hi).2
    obtain ⟨st', hst', k, hk⟩ := untilStable_coalesce t facts hcopies hkeep hstart
    have hsame := rewriteHints_same fn st'
    refine ⟨fn.insns.map (st'.rewriteInst fn), st'.rewriteHints fn, k, ?_, hk.sameGraph hsame,
      length_map _, fun i => ?_⟩
    · rw [hst']
      rfl
    · rw [hsame.find, insn, getD_eq_getElem?_getD, getD_eq_getElem?_getD, List.getElem?_map]
      cases hget : fn.insns[i]? with
      | none =>
        have hnone : st'.find fn (-1) = -1 := find_of_not_valid (by simp [valid])
        exact .kept rfl rfl hnone.symm fun _ _ => rfl
      | some ins => exact rewriteInst_renamed fn st' ins

end ColorState

end Mettle.Mir

import Mettle.Ir.Dominators

/-!
# The order of the blocks

The depth-first walk stops with every reachable block in its postorder, once, and every block but the
entry is left before one of its predecessors. Read backwards the postorder is a numbering in which
each block but the entry has an earlier predecessor.
-/

open List Function

namespace Mettle.Ir.Dom

open Mettle.Lib Mettle.Lib.Flow

variable {g : FlowGraph}

/-- The blocks on the stack. -/
def Walk.open (w : Walk) : List ℕ := w.stack.map Prod.fst

/-- The blocks left, the last one first. -/
def Walk.left (w : Walk) : List ℕ := w.postorder.reverse

theorem edge_of_successor {b s next : ℕ} (hb : b < g.blocks.length) (hs : s < g.blocks.length)
    (h : (g.blocks.getD b default).successors[next]? = some s) : g.flow.edge b s :=
  ⟨hb, hs, mem_of_getElem? h⟩

theorem edge_lt {a b : ℕ} (h : g.flow.edge a b) : a < g.blocks.length ∧ b < g.blocks.length :=
  ⟨h.1, h.2.1⟩

theorem lt_of_reachable {b : ℕ} (h : g.flow.Reachable b) : b < g.blocks.length := by
  obtain ⟨l, hl⟩ := h
  cases hl with
  | root => exact g.entry_lt
  | step _ he => exact he.2.1

/-- What holds of the walk at every step. -/
structure Walk.Inv (g : FlowGraph) (w : Walk) : Prop where
  nodup : (w.open ++ w.left).Nodup
  seen : ∀ b, w.seen b = true ↔ b ∈ w.open ∨ b ∈ w.left
  entry : w.seen g.entry = true
  reachable : ∀ b, w.seen b = true → g.flow.Reachable b
  /-- a block was pushed from the block below it -/
  chain : w.open.IsChain fun x y => g.flow.edge y x
  bottom : ∀ b, w.open.getLast? = some b → b = g.entry
  /-- the successors before the next one have been seen, for a block left all of them -/
  tried : ∀ e ∈ w.stack, ∀ s ∈ (g.blocks.getD e.1 default).successors.take e.2,
    s < g.blocks.length → w.seen s = true
  closed : ∀ b ∈ w.left, ∀ s ∈ (g.blocks.getD b default).successors, s < g.blocks.length →
    w.seen s = true
  /-- a predecessor of a block left is still open or was left later -/
  later : ∀ b ∈ w.left, b ≠ g.entry → ∃ p, g.flow.edge p b ∧
    (p ∈ w.open ∨ p ∈ w.left ∧ w.left.idxOf p < w.left.idxOf b)

theorem Walk.start_inv (g : FlowGraph) : (Walk.start g.entry).Inv g := by
  have hseen : ∀ b, (Walk.start g.entry).seen b = true ↔ b = g.entry := by
    intro b
    by_cases hb : b = g.entry
    · simp [Walk.start, hb]
    · simp [Walk.start, hb]
  refine ⟨?_, ?_, ?_, ?_, ?_, ?_, ?_, ?_, ?_⟩
  · simp [Walk.open, Walk.left, Walk.start]
  · intro b
    rw [hseen]
    simp [Walk.open, Walk.left, Walk.start]
  · rw [hseen]
  · intro b hb
    rw [(hseen b).mp hb]
    exact reachable_root
  · simp [Walk.open, Walk.start]
  · simp [Walk.open, Walk.start]
  · intro e he s hs
    simp only [Walk.start, mem_singleton] at he
    rw [he] at hs
    cases hs
  · intro b hb
    cases hb
  · intro b hb
    cases hb

/-- What is left to do: the successors of the unseen blocks and the untried ones on the stack. -/
def Walk.measure (blocks : List BasicBlock) (w : Walk) : ℕ :=
  (∑ b ∈ (Finset.range blocks.length).filter (w.seen · = false),
      ((blocks.getD b default).successors.length + 1)) +
    (w.stack.map fun e => (blocks.getD e.1 default).successors.length - e.2 + 1).sum

section

variable {w : Walk} {block next : ℕ} {below : List (ℕ × ℕ)} (h : w.Inv g) (hstack : w.stack = (block, next) :: below)
include h hstack

/-- A block is pushed. -/
theorem Walk.Inv.push {s : ℕ} (hs : (g.blocks.getD block default).successors[next]? = some s)
    (hlt : s < g.blocks.length) (hnew : w.seen s = false) :
    Walk.Inv g { w with
      stack := (s, 0) :: (block, next + 1) :: below
      seen := update w.seen s true } := by
  have hopen : w.open = block :: below.map Prod.fst := by
    rw [Walk.open, hstack]
    rfl
  have hblock : g.flow.Reachable block :=
    h.reachable block ((h.seen block).mpr (.inl (by rw [hopen]; exact (.head _))))
  have hedge : g.flow.edge block s := edge_of_successor (lt_of_reachable hblock) hlt hs
  have hseen : ∀ b, update w.seen s true b = true ↔ b = s ∨ w.seen b = true := by
    intro b
    by_cases hb : b = s
    · simp [hb]
    · simp [hb]
  -- unseen, so neither on the stack nor left
  have hnot : ¬ (s ∈ w.open ∨ s ∈ w.left) := by
    rw [← h.seen, hnew]
    simp
  refine ⟨?_, ?_, ?_, ?_, ?_, ?_, ?_, ?_, ?_⟩
  · show ((s :: block :: below.map Prod.fst) ++ w.left).Nodup
    rw [← hopen, cons_append, nodup_cons, mem_append]
    exact ⟨hnot, h.nodup⟩
  · intro b
    show update w.seen s true b = true ↔ b ∈ s :: block :: below.map Prod.fst ∨ b ∈ w.left
    rw [hseen, h.seen, ← hopen, mem_cons, or_assoc]
  · exact (hseen _).mpr (.inr h.entry)
  · intro b hb
    rcases (hseen b).mp hb with rfl | hb
    · exact hblock.step hedge
    · exact h.reachable b hb
  · show (s :: block :: below.map Prod.fst).IsChain _
    have := h.chain
    rw [hopen] at this
    exact isChain_cons_cons.mpr ⟨hedge, this⟩
  · intro b hb
    refine h.bottom b ?_
    rw [hopen]
    simpa [Walk.open, getLast?_cons_cons] using hb
  -- the successors tried: of the new block none yet, of `block` one more
  · intro e he x hx hxlt
    refine (hseen x).mpr ?_
    rcases mem_cons.mp he with rfl | he
    · cases hx
    · rcases mem_cons.mp he with rfl | he
      · rw [take_add_one, hs, mem_append] at hx
        rcases hx with hx | hx
        · exact .inr (h.tried (block, next) (by rw [hstack]; exact (.head _)) x hx hxlt)
        · exact .inl (by simpa using hx)
      · exact .inr (h.tried e (by rw [hstack]; exact .tail _ he) x hx hxlt)
  · intro b hb x hx hxlt
    exact (hseen x).mpr (.inr (h.closed b hb x hx hxlt))
  · intro b hb hne
    obtain ⟨p, he, hp⟩ := h.later b hb hne
    refine ⟨p, he, hp.imp_left fun hp => ?_⟩
    show p ∈ s :: block :: below.map Prod.fst
    rw [← hopen]
    exact .tail _ hp

/-- A successor that has been seen, or is no block, is passed over. -/
theorem Walk.Inv.pass {s : ℕ} (hs : (g.blocks.getD block default).successors[next]? = some s)
    (hold : s < g.blocks.length → w.seen s = true) : Walk.Inv g { w with stack := (block, next + 1) :: below } := by
  have hopen : w.open = block :: below.map Prod.fst := by
    rw [Walk.open, hstack]
    rfl
  have hsame : Walk.open { w with stack := (block, next + 1) :: below } = w.open := by
    rw [hopen]
    rfl
  refine ⟨?_, ?_, h.entry, h.reachable, ?_, ?_, ?_, h.closed, ?_⟩
  · rw [hsame]
    exact h.nodup
  · intro b
    rw [hsame]
    exact h.seen b
  · rw [hsame]
    exact h.chain
  · rw [hsame]
    exact h.bottom
  · intro e he x hx hxlt
    rcases mem_cons.mp he with rfl | he
    · rw [take_add_one, hs, mem_append] at hx
      rcases hx with hx | hx
      · exact h.tried (block, next) (by rw [hstack]; exact (.head _)) x hx hxlt
      · obtain rfl : x = s := by simpa using hx
        exact hold hxlt
    · exact h.tried e (by rw [hstack]; exact .tail _ he) x hx hxlt
  · rw [hsame]
    exact h.later

/-- A block all of whose successors have been seen is left. -/
theorem Walk.Inv.pop (hs : (g.blocks.getD block default).successors[next]? = none) :
    Walk.Inv g { w with stack := below, postorder := w.postorder ++ [block] } := by
  have hopen : w.open = block :: below.map Prod.fst := by
    rw [Walk.open, hstack]
    rfl
  have hleft : Walk.left { w with stack := below, postorder := w.postorder ++ [block] } = block :: w.left := by
    simp [Walk.left]
  have hopen' : Walk.open { w with stack := below, postorder := w.postorder ++ [block] } = below.map Prod.fst := rfl
  have hnodup := h.nodup
  rw [hopen] at hnodup
  -- a block is left once: it was on the stack, which holds nothing that was left
  have hnot : block ∉ w.left := fun hmem =>
    (nodup_cons.mp hnodup).1 (mem_append_right _ hmem)
  -- what was seen stays seen; `block` only moves from the stack to the blocks left
  have hseen : ∀ b, w.seen b = true ↔ b ∈ below.map Prod.fst ∨ b ∈ block :: w.left := by
    intro b
    rw [h.seen, hopen, mem_cons, mem_cons]
    tauto
  refine ⟨?_, ?_, h.entry, h.reachable, ?_, ?_, ?_, ?_, ?_⟩
  · rw [hopen', hleft]
    exact nodup_middle.mpr hnodup
  · intro b
    rw [hopen', hleft]
    exact hseen b
  · rw [hopen']
    have := h.chain
    rw [hopen] at this
    exact this.tail
  · intro b hb
    rw [hopen'] at hb
    refine h.bottom b ?_
    rw [hopen]
    cases hbelow : below.map Prod.fst with
    | nil =>
      rw [hbelow] at hb
      cases hb
    | cons c rest =>
      rw [hbelow] at hb
      exact hb
  · intro e he
    exact h.tried e (by rw [hstack]; exact .tail _ he)
  -- closed: the popped block has no successor left to try, the others were closed before
  · intro b hb x hx hxlt
    rw [hleft] at hb
    rcases mem_cons.mp hb with rfl | hb
    · refine h.tried (b, next) (by rw [hstack]; exact (.head _)) x ?_ hxlt
      rw [take_of_length_le (List.getElem?_eq_none_iff.mp hs)]
      exact hx
    · exact h.closed b hb x hx hxlt
  · intro b hb hne
    rw [hleft] at hb ⊢
    rw [hopen']
    rcases mem_cons.mp hb with rfl | hmem
    · -- the block below on the stack pushed it
      cases hbelow : below.map Prod.fst with
      | nil =>
        exact absurd (h.bottom b (by rw [hopen, hbelow]; rfl)) hne
      | cons c rest =>
        have := h.chain
        rw [hopen, hbelow, isChain_cons_cons] at this
        exact ⟨c, this.1, .inl mem_cons_self⟩
    · have hbne : b ≠ block := by
        rintro rfl
        exact hnot hmem
      obtain ⟨p, he, hp⟩ := h.later b hmem hne
      refine ⟨p, he, ?_⟩
      rw [idxOf_cons_ne _ (Ne.symm hbne)]
      rcases hp with hp | ⟨hp, hlt⟩
      · rw [hopen] at hp
        rcases mem_cons.mp hp with rfl | hp
        · exact .inr ⟨mem_cons_self, by rw [idxOf_cons_self]; omega⟩
        · exact .inl hp
      · have hpne : p ≠ block := by
          rintro rfl
          exact hnot hp
        rw [idxOf_cons_ne _ (Ne.symm hpne)]
        exact .inr ⟨mem_cons_of_mem _ hp, by omega⟩

end

/-- One step of the walk keeps the invariant and comes closer to the end. -/
theorem Walk.Inv.step {w : Walk} (h : w.Inv g) (hstack : w.stack ≠ []) :
    ∃ w', Walk.step g.blocks w = some w' ∧ w'.Inv g ∧ w'.measure g.blocks < w.measure g.blocks := by
  cases hst : w.stack with
  | nil => exact absurd hst hstack
  | cons e below =>
    obtain ⟨block, next⟩ := e
    simp only [Walk.step, hst]
    cases hs : (g.blocks.getD block default).successors[next]? with
    | none =>
      refine ⟨_, rfl, h.pop hst hs, ?_⟩
      simp only [Walk.measure, hst, map_cons, sum_cons]
      omega
    | some s =>
      have hnext := (List.getElem?_eq_some_iff.mp hs).1
      dsimp only
      by_cases hnew : s < g.blocks.length ∧ w.seen s = false
      · rw [if_pos hnew]
        refine ⟨_, rfl, h.push hst hs hnew.1 hnew.2, ?_⟩
        have hfilter : (Finset.range g.blocks.length).filter (w.seen · = false) =
            insert s ((Finset.range g.blocks.length).filter (update w.seen s true · = false)) := by
          ext b
          by_cases hb : b = s
          · simp [hb, hnew]
          · simp [hb]
        have hnot : s ∉ (Finset.range g.blocks.length).filter (update w.seen s true · = false) := by
          simp
        simp only [Walk.measure, hst, hfilter, Finset.sum_insert hnot, map_cons, sum_cons]
        omega
      · rw [if_neg hnew]
        refine ⟨_, rfl, h.pass hst hs fun hlt => ?_, ?_⟩
        · by_contra hseen
          exact hnew ⟨hlt, by simpa using hseen⟩
        · simp only [Walk.measure, hst, map_cons, sum_cons]
          omega

/-- The order of the blocks: the reachable ones, each once, and every block but the entry after one
of its predecessors. -/
structure IsOrder (g : FlowGraph) (order : List ℕ) : Prop where
  nodup : order.Nodup
  mem : ∀ {b : ℕ}, b ∈ order ↔ g.flow.Reachable b
  numbering : g.flow.Numbering order.idxOf

/-- The walk stops, with an order of the blocks. -/
theorem order_spec {fuel : ℕ} (hfuel : (Walk.start g.entry).measure g.blocks < fuel) :
    ∃ l, order g.blocks g.entry fuel = some l ∧ IsOrder g l := by
  have hstep : ∀ w : Walk, w.Inv g → (!w.stack.isEmpty) = true → ∃ w', Walk.step g.blocks w = some w' ∧
      w'.Inv g ∧ w'.measure g.blocks < w.measure g.blocks := by
    intro w h hcond
    exact h.step (by simpa using hcond)
  obtain ⟨w, hw, hinv, hstop⟩ := loop_total hstep (Walk.start_inv g) hfuel
  have hstack : w.open = [] := by
    rw [Walk.open]
    simpa using hstop
  have hseen : ∀ b, w.seen b = true ↔ b ∈ w.left := by
    intro b
    rw [hinv.seen, hstack]
    simp
  have hmem : ∀ {b : ℕ}, b ∈ w.left ↔ g.flow.Reachable b := by
    intro b
    refine ⟨fun hb => hinv.reachable b ((hseen b).mpr hb), ?_⟩
    rintro ⟨l, hl⟩
    induction hl with
    | root => exact (hseen _).mp hinv.entry
    | step _ he ih => exact (hseen _).mp (hinv.closed _ ih _ he.2.2 he.2.1)
  refine ⟨w.left, ?_, ?_, hmem, ?_, ?_⟩
  · rw [order, hw]
    rfl
  · have := hinv.nodup
    rwa [hstack] at this
  · intro x y hx hy hxy
    exact (idxOf_inj (hmem.mpr hx)).mp hxy
  · intro b hb hroot
    obtain ⟨p, he, hp⟩ := hinv.later b (hmem.mpr hb) hroot
    rw [hstack] at hp
    obtain ⟨hp, hlt⟩ := hp.resolve_left (not_mem_nil)
    exact ⟨p, hmem.mp hp, he, hlt⟩

/-- The index of a block is its place in the order. -/
theorem rpoIndex_eq {order : List ℕ} (hnodup : order.Nodup) (b : ℕ) :
    rpoIndex order b = if b ∈ order then some (order.idxOf b) else none := by
  -- after a part of the order, the blocks of that part have their places
  have hpart : ∀ (l : List ℕ) (k : ℕ) (index : ℕ → Option ℕ), l.Nodup →
      (l.zipIdx k).foldl (fun (index : ℕ → Option ℕ) e => update index e.1 (some e.2)) index b =
        if b ∈ l then some (k + l.idxOf b) else index b := by
    intro l
    induction l with
    | nil => simp
    | cons a rest ih =>
      intro k index hl
      rw [nodup_cons] at hl
      rw [zipIdx_cons, foldl_cons, ih _ _ hl.2]
      by_cases hba : b = a
      · subst hba
        simp [hl.1]
      · rw [idxOf_cons_ne _ (Ne.symm hba), update_of_ne hba]
        simp only [mem_cons, hba, false_or]
        split
        · rw [Nat.add_right_comm, Nat.add_assoc]
        · rfl
  have := hpart order 0 (fun _ => none) hnodup
  simpa [rpoIndex] using this

end Mettle.Ir.Dom

import Mettle.Ir.DominatorsTour

/-!
# The dominator tree is exact, and so are its frontiers away from the entry

Both sweeps of `ir_dom_build` make the same visits, those of the runners that climb from the
predecessors of a block to its immediate dominator. A sweep is the fold over that list of visits, so
the filling one records no more than the counting one has reserved. The runners of the entry stop at
the entry itself, which is in its own frontier as soon as some reachable block branches to it.
-/

open List Function
open Option hiding or_assoc

namespace Mettle.Ir.Dom

open Mettle.Lib Mettle.Lib.Flow

variable {g : FlowGraph} {order : List ℕ} {idom : ℕ → Option ℕ}

/-! ## A sweep is a fold over its visits -/

section Visits

variable {σ : Type*} (stamp : σ → ℕ → ℕ → σ)

/-- Note a visit. -/
def note (log : List (ℕ × ℕ)) (r block : ℕ) : List (ℕ × ℕ) := log ++ [(r, block)]

/-- What the visits do to a state. -/
def replay (s : σ) (log : List (ℕ × ℕ)) : σ := log.foldl (fun s e => stamp s e.1 e.2) s

theorem replay_cons (s : σ) (e : ℕ × ℕ) (log : List (ℕ × ℕ)) :
    replay stamp s (e :: log) = replay stamp (stamp s e.1 e.2) log :=
  rfl

/-- Two lists of visits, one after the other. -/
theorem replay_append (s : σ) (log log' : List (ℕ × ℕ)) :
    replay stamp s (log ++ log') = replay stamp (replay stamp s log) log' :=
  foldl_append

/-- One visit more. -/
theorem replay_note (s : σ) (log : List (ℕ × ℕ)) (r block : ℕ) :
    replay stamp s (note log r block) = stamp (replay stamp s log) r block :=
  replay_append stamp s log [(r, block)]

/-- A runner does to a state what its visits do. -/
theorem runner_eq_replay (idom : ℕ → Option ℕ) (fuel block pred : ℕ) (s : σ) (log : List (ℕ × ℕ)) :
    runner idom stamp fuel block pred (replay stamp s log) =
      (runner idom note fuel block pred log).map (replay stamp s) := by
  unfold runner
  generalize hpos : some pred = pos
  clear hpos
  generalize hn : fuel = n
  clear hn
  induction n generalizing log pos with
  | zero => rfl
  | succ n ih =>
    rw [loop, loop]
    by_cases hcond : decide (pos ≠ none ∧ pos ≠ idom block) = true
    · rw [if_pos hcond, if_pos hcond]
      cases pos with
      | none => rfl
      | some r =>
        simp only [map_some, bind_some]
        rw [← replay_note stamp s log r block]
        exact ih _ _
    · rw [if_neg hcond, if_neg hcond]
      rfl

/-- A fold of such steps is one as well. -/
theorem foldlM_eq_replay {α : Type*} {f : σ → α → Option σ} {f' : List (ℕ × ℕ) → α → Option (List (ℕ × ℕ))} {s : σ}
    (hf : ∀ log a, f (replay stamp s log) a = (f' log a).map (replay stamp s)) (l : List α)
    (log : List (ℕ × ℕ)) :
    l.foldlM f (replay stamp s log) = (l.foldlM f' log).map (replay stamp s) := by
  induction l generalizing log with
  | nil => rfl
  | cons a rest ih =>
    rw [foldlM_cons, foldlM_cons, hf]
    cases f' log a with
    | none => rfl
    | some log' => exact ih log'

/-- So does a whole sweep. -/
theorem sweep_eq_replay (blocks : List BasicBlock) (idom : ℕ → Option ℕ) (fuel : ℕ) (s : σ) :
    sweep blocks idom stamp fuel s = (sweep blocks idom note fuel []).map (replay stamp s) := by
  refine foldlM_eq_replay stamp (fun log block => ?_) _ []
  unfold runners
  split
  · rfl
  · refine foldlM_eq_replay stamp (fun log pred => ?_) _ log
    split
    · rfl
    · exact runner_eq_replay stamp idom fuel block pred s log

end Visits

/-! ## The visits -/

/-- The step appends visits, namely those in `P`. -/
def Appends (f : List (ℕ × ℕ) → Option (List (ℕ × ℕ))) (P : ℕ × ℕ → Prop) : Prop :=
  ∀ log, ∃ visits, f log = some (log ++ visits) ∧ ∀ e, e ∈ visits ↔ P e

theorem appends_nothing {P : ℕ × ℕ → Prop} (hP : ∀ e, ¬ P e) : Appends some P :=
  fun log => ⟨[], by rw [append_nil], fun e => ⟨nofun, fun h => absurd h (hP e)⟩⟩

/-- A loop appends what its rounds do. -/
theorem appends_foldlM {α : Type*} {f : List (ℕ × ℕ) → α → Option (List (ℕ × ℕ))}
    {P : α → ℕ × ℕ → Prop} {l : List α} (hf : ∀ a ∈ l, Appends (fun log => f log a) (P a)) :
    Appends (l.foldlM f) fun e => ∃ a ∈ l, P a e := by
  induction l with
  | nil => exact appends_nothing (by simp)
  | cons a rest ih =>
    intro log
    obtain ⟨visits, hvisits, hmem⟩ := hf a (.head _) log
    obtain ⟨visits', hvisits', hmem'⟩ :=
      ih (fun b hb => hf b (.tail _ hb)) (log ++ visits)
    refine ⟨visits ++ visits', ?_, fun e => ?_⟩
    · dsimp only at hvisits hvisits' ⊢
      rw [foldlM_cons, hvisits, ← append_assoc]
      exact hvisits'
    · rw [mem_append, hmem, hmem']
      simp

/-- A runner from `pred` visits the blocks above `pred` that are not above the dominator of its
block. -/
theorem runner_appends (ho : IsOrder g order) (hd : IsDomTree g order idom) {fuel block pred d : ℕ}
    (hfuel : order.length ≤ fuel) (hstop : idom block = some d) (hpred : g.flow.Reachable pred)
    (habove : Above idom pred d) :
    Appends (runner idom note fuel block pred) fun e =>
      e.2 = block ∧ Above idom pred e.1 ∧ ¬ Above idom d e.1 := by
  intro log
  have htree := hd.converging.toTree
  -- the runner has logged the blocks between `pred` and where it stands now
  let Inv : List (ℕ × ℕ) × Option ℕ → Prop := fun s => ∃ r visits, s = (log ++ visits, some r) ∧
    (idom r).isSome ∧ Above idom r d ∧
    ∀ e : ℕ × ℕ, e ∈ visits ∨ e.2 = block ∧ Above idom r e.1 ∧ ¬ Above idom d e.1 ↔
      e.2 = block ∧ Above idom pred e.1 ∧ ¬ Above idom d e.1
  -- one move up the tree logs one block more
  have hbody : ∀ s, Inv s → decide (s.2 ≠ none ∧ s.2 ≠ idom block) = true →
      ∃ s', (s.2.map fun r => (note s.1 r block, if idom r = some r then none else idom r)) = some s' ∧
        Inv s' ∧ s'.2.elim 0 order.idxOf < s.2.elim 0 order.idxOf := by
    rintro s ⟨r, visits, rfl, hr, hrd, hmem⟩ hcond
    have hne : r ≠ d := by
      rintro rfl
      simp [hstop] at hcond
    have hroot : r ≠ g.flow.root := by
      rintro rfl
      exact hne (htree.above_root hrd).symm
    obtain ⟨r', hr'⟩ := isSome_iff_exists.mp hr
    have hlt := htree.lt hroot hr'
    have hself : r' ≠ r := by
      rintro rfl
      exact lt_irrefl _ hlt
    have hup : Above idom r' d := by
      rcases hrd.eq_or with h | ⟨c, hc, hcd⟩
      · exact absurd h hne
      · rw [hr'] at hc
        rwa [some.inj hc]
    have hnot : ¬ Above idom d r :=
      fun hdr => hne (htree.eq_of_rank_le hdr (htree.rank_le hrd))
    refine ⟨(log ++ visits ++ [(r, block)], some r'), by simp [note, hself, hr'],
      ⟨r', visits ++ [(r, block)], by rw [append_assoc], htree.closed hr', hup, fun e => ?_⟩, hlt⟩
    rw [← hmem e, mem_append, or_assoc, mem_singleton]
    refine or_congr_right ?_
    obtain ⟨z, y⟩ := e
    have hstep : Above idom r z ↔ z = r ∨ Above idom r' z := by
      refine ⟨fun h => ?_, ?_⟩
      · rcases h.eq_or with rfl | ⟨c, hc, hcz⟩
        · exact .inl rfl
        · rw [hr'] at hc
          rw [some.inj hc]
          exact .inr hcz
      · rintro (rfl | h)
        · exact Above.refl z
        · exact Above.of_parent hr' h
    rw [Prod.mk.injEq, hstep]
    constructor
    · rintro (⟨rfl, rfl⟩ | ⟨h₁, h₂, h₃⟩)
      · exact ⟨rfl, .inl rfl, hnot⟩
      · exact ⟨h₁, .inr h₂, h₃⟩
    · rintro ⟨h₁, rfl | h₂, h₃⟩
      · exact .inl ⟨rfl, h₁⟩
      · exact .inr ⟨h₁, h₂, h₃⟩
  have hstart : Inv (log, some pred) :=
    ⟨pred, [], by rw [append_nil], hd.isSome_iff.mpr hpred, habove, by simp⟩
  obtain ⟨s, hs, ⟨r, visits, rfl, -, hrd, hmem⟩, hend⟩ :=
    loop_total hbody hstart ((ho.idxOf_lt hpred).trans_le hfuel)
  have hr : r = d := by simpa [hstop] using hend
  refine ⟨visits, ?_, fun e => ?_⟩
  · rw [runner, hs]
    rfl
  · dsimp only
    rw [← hmem e, hr]
    tauto

/-- The immediate dominator of a block is above its predecessors. -/
theorem IsDomTree.above_pred (hd : IsDomTree g order idom) {p b : ℕ} (he : g.flow.edge p b)
    (hp : g.flow.Reachable p) : ∃ d, idom b = some d ∧ Above idom p d := by
  by_cases hb : b = g.entry
  · refine ⟨g.entry, by rw [hb]; exact hd.converging.root, ?_⟩
    rw [hd.above_iff hp]
    refine ⟨hp, fun l hl => ?_⟩
    clear he hp
    induction hl with
    | root => exact mem_singleton_self _
    | step _ _ ih => exact .tail _ ih
  · obtain ⟨d, hdb, hnear⟩ := hd.settled (hp.step he) hb
    exact ⟨d, hdb, (hnear d).mp (Above.refl d) p he (hd.isSome_iff.mpr hp)⟩

/-- A runner of the block passes through `r`. -/
def Runs (g : FlowGraph) (idom : ℕ → Option ℕ) (r block : ℕ) : Prop :=
  2 ≤ (g.blocks.getD block default).predecessors.length ∧ ∃ p d, g.flow.Reachable p ∧
    g.flow.edge p block ∧ idom block = some d ∧ Above idom p r ∧ ¬ Above idom d r

/-- The visits of a sweep. -/
theorem sweep_appends (ho : IsOrder g order) (hd : IsDomTree g order idom) {fuel : ℕ} (hfuel : order.length ≤ fuel) :
    Appends (sweep g.blocks idom note fuel) fun e => Runs g idom e.1 e.2 := by
  -- one block of the sweep: with fewer than two predecessors it is in no frontier by this block
  have hblock : ∀ block ∈ range g.blocks.length, Appends (fun log => runners g.blocks idom note fuel log block)
        fun e => e.2 = block ∧ Runs g idom e.1 e.2 := by
    intro block hblock
    rw [mem_range] at hblock
    unfold runners
    by_cases hfew : (g.blocks.getD block default).predecessors.length < 2
    · simp only [if_pos hfew]
      refine appends_nothing ?_
      rintro e ⟨rfl, hruns⟩
      exact absurd hruns.1 (by omega)
    · simp only [if_neg hfew]
      have hpred : ∀ pred ∈ (g.blocks.getD block default).predecessors,
          Appends (fun log => if g.blocks.length ≤ pred ∨ idom pred = none then some log
            else runner idom note fuel block pred log)
            fun e => pred < g.blocks.length ∧ g.flow.Reachable pred ∧ e.2 = block ∧
              ∃ d, idom block = some d ∧ Above idom pred e.1 ∧ ¬ Above idom d e.1 := by
        intro pred hmem
        by_cases hskip : g.blocks.length ≤ pred ∨ idom pred = none
        · simp only [if_pos hskip]
          refine appends_nothing ?_
          rintro e ⟨hlt, hreach, -⟩
          rcases hskip with h | h
          · omega
          · have := hd.isSome_iff.mpr hreach
            rw [h] at this
            cases this
        · simp only [if_neg hskip]
          rw [not_or, not_le, ← ne_eq, ne_none_iff_isSome, hd.isSome_iff] at hskip
          have he := (edge_iff_mem_predecessors hblock).mpr ⟨hskip.1, hmem⟩
          obtain ⟨d, hdb, habove⟩ := hd.above_pred he hskip.2
          intro log
          obtain ⟨visits, hvisits, hmem⟩ := runner_appends ho hd hfuel hdb hskip.2 habove log
          refine ⟨visits, hvisits, fun e => ?_⟩
          rw [hmem e]
          constructor
          · rintro ⟨h₁, h₂, h₃⟩
            exact ⟨hskip.1, hskip.2, h₁, d, hdb, h₂, h₃⟩
          · rintro ⟨-, -, h₁, d', hd', h₂, h₃⟩
            rw [hdb] at hd'
            rw [some.inj hd']
            exact ⟨h₁, h₂, h₃⟩
      intro log
      obtain ⟨visits, hvisits, hmem⟩ := appends_foldlM hpred log
      refine ⟨visits, hvisits, fun e => ?_⟩
      rw [hmem e]
      constructor
      · rintro ⟨p, hp, hlt, hreach, rfl, d, hdb, h₁, h₂⟩
        exact ⟨rfl, by omega, p, d, hreach, (edge_iff_mem_predecessors hblock).mpr ⟨hlt, hp⟩, hdb, h₁, h₂⟩
      · rintro ⟨rfl, -, p, d, hreach, he, hdb, h₁, h₂⟩
        obtain ⟨hlt, hp⟩ := (edge_iff_mem_predecessors hblock).mp he
        exact ⟨p, hp, hlt, hreach, rfl, d, hdb, h₁, h₂⟩
  intro log
  -- the sweep is the blocks one after another, so its log is the union of theirs
  obtain ⟨visits, hvisits, hmem⟩ := appends_foldlM hblock log
  refine ⟨visits, hvisits, fun e => ?_⟩
  rw [hmem e]
  constructor
  · rintro ⟨block, -, -, hruns⟩
    exact hruns
  · intro hruns
    obtain ⟨p, d, -, he, -⟩ := hruns.2
    exact ⟨e.2, mem_range.mpr (edge_lt he).2, rfl, hruns⟩

/-! ## The slots -/

/-- The counting sweep counts the visits of each runner. -/
theorem replay_counts (log : List (ℕ × ℕ)) (counts : ℕ → ℕ) (r : ℕ) :
    replay (fun counts r _ => update counts r (counts r + 1)) counts log r =
      counts r + log.countP fun e => e.1 = r := by
  induction log generalizing counts with
  | nil => simp [replay]
  | cons e rest ih =>
    rw [replay_cons, ih, countP_cons]
    by_cases he : e.1 = r
    · rw [he, update_self]
      simp
      omega
    · rw [update_of_ne (Ne.symm he)]
      simp [he]

/-- The slots of two blocks do not overlap. -/
theorem frontierStart_add_le (counts : ℕ → ℕ) {r r' : ℕ} (h : r < r') :
    frontierStart counts r + counts r ≤ frontierStart counts r' := by
  induction r' with
  | zero => omega
  | succ n ih =>
    have hsucc : frontierStart counts (n + 1) = frontierStart counts n + counts n := by
      simp [frontierStart, range_succ]
    rcases Nat.lt_succ_iff_lt_or_eq.mp h with h | rfl
    · have := ih h
      omega
    · omega

/-- The slots of different blocks are different. -/
theorem frontierStart_ne (counts : ℕ → ℕ) {r r' k k' : ℕ} (hne : r ≠ r') (hk : k < counts r)
    (hk' : k' < counts r') : frontierStart counts r + k ≠ frontierStart counts r' + k' := by
  rcases Nat.lt_or_gt_of_ne hne with h | h
  · have := frontierStart_add_le counts h
    omega
  · have := frontierStart_add_le counts h
    omega

/-- The blocks recorded with a runner. -/
def Filled.recorded (start : ℕ → ℕ) (s : Filled) (r : ℕ) : List ℕ :=
  (List.range (s.count r)).map fun k => s.cells (start r + k)

/-- What has been recorded after some visits. -/
structure Filled.Inv (start : ℕ → ℕ) (s : Filled) (log : List (ℕ × ℕ)) : Prop where
  nodup : ∀ r, (s.recorded start r).Nodup
  mem : ∀ r y, y ∈ s.recorded start r ↔ (r, y) ∈ log
  count_le : ∀ r, s.count r ≤ log.countP fun e => e.1 = r

/-- One entry more, in a slot that is reserved for it. -/
theorem Filled.Inv.record {counts : ℕ → ℕ} {s : Filled} {log : List (ℕ × ℕ)}
    (h : s.Inv (frontierStart counts) log) {r y : ℕ}
    (hroom : ∀ r', (log ++ [(r, y)]).countP (fun e => e.1 = r') ≤ counts r') :
    (Dom.record (frontierStart counts) s r y).Inv (frontierStart counts) (log ++ [(r, y)]) := by
  have hcountP : ∀ r', (log ++ [(r, y)]).countP (fun e => e.1 = r') =
      log.countP (fun e => e.1 = r') + if r = r' then 1 else 0 := by
    intro r'
    simp [countP_append, countP_cons]
  have hmem' : ∀ r' y', (r', y') ∈ log ++ [(r, y)] ↔ (r', y') ∈ log ∨ r' = r ∧ y' = y := by
    intro r' y'
    simp
  have hpresent : ((range (s.count r)).any fun k => s.cells (frontierStart counts r + k) = y) =
      true ↔ (r, y) ∈ log := by
    rw [← h.mem]
    simp [Filled.recorded]
  rw [Dom.record]
  by_cases hp : (r, y) ∈ log
  · rw [if_pos (hpresent.mpr hp)]
    refine ⟨h.nodup, fun r' y' => ?_, fun r' => ?_⟩
    · rw [h.mem, hmem']
      constructor
      · exact .inl
      · rintro (h' | ⟨rfl, rfl⟩)
        · exact h'
        · exact hp
    · rw [hcountP]
      exact (h.count_le r').trans (Nat.le_add_right _ _)
  · rw [if_neg (mt hpresent.mp hp)]
    have hroom_r : s.count r < counts r := by
      have h₁ := hroom r
      have h₂ := h.count_le r
      rw [hcountP, if_pos rfl] at h₁
      omega
    have hroom_of : ∀ r', s.count r' ≤ counts r' := by
      intro r'
      have h₁ := hroom r'
      have h₂ := h.count_le r'
      rw [hcountP] at h₁
      omega
    -- the new slot is not one that is in use
    have hself : Filled.recorded (frontierStart counts)
        { cells := update s.cells (frontierStart counts r + s.count r) y
          count := update s.count r (s.count r + 1) } r = s.recorded (frontierStart counts) r ++ [y] := by
      simp only [Filled.recorded, update_self, range_succ, map_append, map_singleton]
      congr 1
      refine map_congr_left fun k hk => ?_
      rw [mem_range] at hk
      exact update_of_ne (by omega) ..
    have hother : ∀ r', r' ≠ r → Filled.recorded (frontierStart counts)
        { cells := update s.cells (frontierStart counts r + s.count r) y
          count := update s.count r (s.count r + 1) } r' = s.recorded (frontierStart counts) r' := by
      intro r' hne
      simp only [Filled.recorded, update_of_ne hne]
      refine map_congr_left fun k hk => ?_
      rw [mem_range] at hk
      exact update_of_ne (frontierStart_ne counts hne (hk.trans_le (hroom_of r')) hroom_r) ..
    refine ⟨fun r' => ?_, fun r' y' => ?_, fun r' => ?_⟩
    · by_cases hr : r' = r
      · rw [hr, hself, nodup_append]
        refine ⟨h.nodup r, nodup_singleton y, ?_⟩
        intro a ha b hb hab
        rw [mem_singleton.mp hb] at hab
        rw [hab, h.mem] at ha
        exact hp ha
      · rw [hother r' hr]
        exact h.nodup r'
    · rw [hmem']
      by_cases hr : r' = r
      · rw [hr, hself, mem_append, h.mem, mem_singleton]
        simp
      · rw [hother r' hr, h.mem]
        simp [hr]
    · rw [hcountP]
      show update s.count r (s.count r + 1) r' ≤ _
      by_cases hr : r' = r
      · rw [hr, update_self, if_pos rfl]
        exact Nat.add_le_add_right (h.count_le r) 1
      · rw [update_of_ne hr, if_neg (Ne.symm hr)]
        exact h.count_le r'

/-- The filling visits stay within what the counting ones reserve. -/
theorem replay_record {counts : ℕ → ℕ} (log rest : List (ℕ × ℕ)) {s : Filled} (h : s.Inv (frontierStart counts) log)
    (hroom : ∀ r, (log ++ rest).countP (fun e => e.1 = r) ≤ counts r) :
    (replay (record (frontierStart counts)) s rest).Inv (frontierStart counts) (log ++ rest) := by
  induction rest generalizing log s with
  | nil =>
    rw [append_nil]
    exact h
  | cons e rest ih =>
    have hsplit : log ++ e :: rest = log ++ [(e.1, e.2)] ++ rest := by simp
    rw [hsplit] at hroom ⊢
    refine ih (log ++ [(e.1, e.2)]) (h.record fun r => ?_) hroom
    exact ((sublist_append_left _ rest).countP_le).trans (hroom r)

/-- Both sweeps end; every block has the blocks recorded whose runners pass through it. -/
theorem fill_spec (ho : IsOrder g order) (hd : IsDomTree g order idom) {fuel : ℕ} (hfuel : order.length ≤ fuel) :
    ∃ reserved filled, counts g.blocks idom fuel = some reserved ∧
      fill g.blocks idom fuel (frontierStart reserved) = some filled ∧
      (∀ r, filled.count r ≤ reserved r) ∧
      (∀ r, (filled.recorded (frontierStart reserved) r).Nodup) ∧
      ∀ r y, y ∈ filled.recorded (frontierStart reserved) r ↔ Runs g idom r y := by
  obtain ⟨log, hlog, hmem⟩ := sweep_appends ho hd hfuel []
  have hreserved : ∀ r, replay (fun counts r _ => update counts r (counts r + 1))
      (fun _ => 0) log r = log.countP fun e => e.1 = r := by
    intro r
    rw [replay_counts, Nat.zero_add]
  have hempty : Filled.Inv (frontierStart (replay
      (fun counts r _ => update counts r (counts r + 1)) (fun _ => 0) log))
      ⟨fun _ => 0, fun _ => 0⟩ [] :=
    ⟨fun r => nodup_nil, fun r y => by simp [Filled.recorded], fun r => le_rfl⟩
  have hinv := replay_record [] log hempty fun r => (hreserved r).ge
  rw [nil_append] at hinv
  refine ⟨_, _, ?_, ?_, fun r => ?_, hinv.nodup, fun r y => ?_⟩
  · rw [counts, sweep_eq_replay, hlog]
    rfl
  · rw [fill, sweep_eq_replay, hlog]
    rfl
  · rw [hreserved]
    exact hinv.count_le r
  · rw [hinv.mem, hmem]

/-! ## What `ir_dom_build` returns -/

/-- The tree that was built, over its order of the blocks. -/
structure Built (g : FlowGraph) (fuel : ℕ) (dom : DomTree) (order : List ℕ) : Prop where
  isOrder : IsOrder g order
  isTree : IsDomTree g order dom.idom
  count : dom.blockCount = g.blocks.length
  index : ∀ b, dom.rpoIndex b ≠ none ↔ g.flow.Reachable b
  stamped : ∀ {a b : ℕ}, g.flow.Reachable a → g.flow.Reachable b →
    (dom.enter a ≤ dom.enter b ∧ dom.leave b ≤ dom.leave a ↔ Above dom.idom b a)
  nodup : ∀ b, (dom.dominanceFrontier b).Nodup
  mem_frontier : ∀ b < g.blocks.length, ∀ y, y ∈ dom.dominanceFrontier b ↔ Runs g dom.idom b y
  reserved : ∃ reserved, counts g.blocks dom.idom fuel = some reserved ∧
    ∀ b, dom.frontierCount b ≤ reserved b

/-- `ir_dom_build` ends. -/
theorem build_spec (g : FlowGraph) : ∃ bound, ∀ fuel ≥ bound, ∃ dom order, build g.blocks g.entry fuel = some dom ∧
      Built g fuel dom order := by
  set n := g.blocks.length with hn
  refine ⟨(Walk.start g.entry).measure g.blocks + 2 * n + 2 * (n * n) + 2, fun fuel hfuel => ?_⟩
  obtain ⟨order, hrun, ho⟩ := @order_spec g fuel (by omega)
  have hlen : order.length ≤ n := by
    have hsub : order ⊆ range n :=
      fun b hb => mem_range.mpr (lt_of_reachable (ho.mem.mp hb))
    simpa using (ho.nodup.subperm hsub).length_le
  have hsq : order.length * order.length ≤ n * n := Nat.mul_le_mul hlen hlen
  obtain ⟨idom, hidom, hd⟩ := @immediate_spec g order fuel ho (by omega)
  obtain ⟨t, ht, hstamped⟩ := @tour_spec g order idom ho hd fuel (by omega)
  obtain ⟨reserved, filled, hcounts, hfill, hle, hnodup, hmem⟩ :=
    @fill_spec g order idom ho hd fuel (by omega)
  let c := children g.entry idom order
  refine ⟨{ idom, rpoIndex := rpoIndex order, order, childHead := c.head, childNext := c.next,
            enter := t.enter, leave := t.leave, frontier := filled.cells,
            frontierStart := frontierStart reserved, frontierCount := filled.count,
            frontierTotal := frontierStart reserved n, blockCount := n, entry := g.entry },
    order, ?_, ?_⟩
  · rw [build, if_pos g.entry_lt, hrun]
    simp only [bind_eq_bind, bind_some, hidom, ht, hcounts, hfill]
    rfl
  · refine ⟨ho, hd, rfl, fun b => ?_, hstamped, fun b => ?_, fun b hb => ?_, ⟨reserved, hcounts, hle⟩⟩
    · show rpoIndex order b ≠ none ↔ _
      rw [rpoIndex_eq ho.nodup, ← ho.mem]
      split <;> simp_all
    · unfold DomTree.dominanceFrontier
      split
      · exact hnodup b
      · exact nodup_nil
    · unfold DomTree.dominanceFrontier
      rw [if_pos hb]
      exact hmem b

/-- The stamps answer whether a block is above another in the tree. -/
theorem Built.blockDominates_iff {fuel : ℕ} {dom : DomTree} (h : Built g fuel dom order) (a b : ℕ) :
    dom.blockDominates a b = true ↔ g.flow.Reachable a ∧ g.flow.Reachable b ∧ Above dom.idom b a := by
  rw [DomTree.blockDominates, decide_eq_true_iff, h.index, h.index, h.count]
  constructor
  · rintro ⟨-, -, ha, hb, hstamps⟩
    exact ⟨ha, hb, (h.stamped ha hb).mp hstamps⟩
  · rintro ⟨ha, hb, habove⟩
    exact ⟨lt_of_reachable ha, lt_of_reachable hb, ha, hb, (h.stamped ha hb).mpr habove⟩

/-- `ir_block_dominates` answers dominance, `idom` is the immediate dominator, and the stamps agree
with the chains of parents. -/
theorem build_dominates_iff (g : FlowGraph) :
    ∃ bound, ∀ fuel ≥ bound, ∃ dom, build g.blocks g.entry fuel = some dom ∧
      (∀ a b, dom.blockDominates a b = true ↔
        g.flow.Reachable a ∧ g.flow.Reachable b ∧ ∀ l, g.flow.PathTo b l → a ∈ l) ∧
      (∀ b, g.flow.Reachable b → b ≠ g.entry → ∃ d, dom.idom b = some d ∧
        g.flow.StrictlyDominates d b ∧ ∀ a, g.flow.StrictlyDominates a b → g.flow.Dominates a d) ∧
      ∀ a b, dom.blockDominates a b = true ↔ g.flow.Reachable b ∧ Above dom.idom b a := by
  obtain ⟨bound, hbound⟩ := build_spec g
  refine ⟨bound, fun fuel hfuel => ?_⟩
  obtain ⟨dom, order, hbuild, h⟩ := hbound fuel hfuel
  refine ⟨dom, hbuild, fun a b => ?_, fun b hb hne => ?_, fun a b => ?_⟩
  · rw [h.blockDominates_iff]
    refine and_congr_right fun _ => and_congr_right fun hb => ?_
    rw [h.isTree.above_iff hb]
    exact ⟨fun hd => hd.2, fun hall => ⟨hb, hall⟩⟩
  · obtain ⟨d, hd, -⟩ := h.isTree.settled hb hne
    have hlt := h.isTree.converging.lt hne hd
    refine ⟨d, hd, ⟨?_, ?_⟩, fun a ha => h.isTree.converging.sound hd ha⟩
    · rw [← h.isTree.above_iff hb]
      exact Above.of_parent hd (Above.refl d)
    · rintro rfl
      exact lt_irrefl _ hlt
  · rw [h.blockDominates_iff]
    refine ⟨fun hab => hab.2, fun hab => ⟨?_, hab⟩⟩
    exact ((h.isTree.above_iff hab.1).mp hab.2).reachable

/-- A block has one immediate dominator, its parent. -/
theorem IsDomTree.idom_iff (hd : IsDomTree g order idom)
    {b p : ℕ} (hb : g.flow.Reachable b) (hne : b ≠ g.entry) : idom b = some p ↔
      g.flow.StrictlyDominates p b ∧ ∀ a, g.flow.StrictlyDominates a b → g.flow.Dominates a p := by
  have hparent {d : ℕ} (h : idom b = some d) :
      g.flow.StrictlyDominates d b ∧ ∀ a, g.flow.StrictlyDominates a b → g.flow.Dominates a d := by
    refine ⟨⟨(hd.above_iff hb).mp (.of_parent h (.refl d)), ?_⟩, fun a ha => hd.converging.sound h ha⟩
    rintro rfl
    exact lt_irrefl _ (hd.converging.lt hne h)
  refine ⟨hparent, fun ⟨hp, hall⟩ => ?_⟩
  obtain ⟨d, hidom, -⟩ := hd.settled hb hne
  obtain ⟨hdb, hdall⟩ := hparent hidom
  have habove := (hd.above_iff hdb.1.reachable).mpr (hdall p hp)
  have habove' := (hd.above_iff hp.1.reachable).mpr (hall d hdb)
  rw [hidom, hd.converging.eq_of_rank_le habove (hd.converging.rank_le habove')]

/-- The links of a block list the blocks that it is the immediate dominator of, in the order of the blocks, which holds
each reachable block once. -/
theorem build_children (g : FlowGraph) :
    ∃ bound, ∀ fuel ≥ bound, ∃ dom, build g.blocks g.entry fuel = some dom ∧ dom.order.Nodup ∧
      (∀ b, b ∈ dom.order ↔ g.flow.Reachable b) ∧
      ∀ p, ∃ l, Linked dom.childNext (dom.childHead p) l ∧ l.Sublist dom.order ∧ ∀ b, b ∈ l ↔
        b ≠ g.entry ∧ g.flow.StrictlyDominates p b ∧ ∀ a, g.flow.StrictlyDominates a b → g.flow.Dominates a p := by
  obtain ⟨bound, hbound⟩ := build_spec g
  refine ⟨bound + (Walk.start g.entry).measure g.blocks + 1, fun fuel hfuel => ?_⟩
  obtain ⟨dom, _, hbuild, h⟩ := hbound fuel (by omega)
  obtain ⟨order, hrun, ho⟩ := @order_spec g fuel (by omega)
  have hd := h.isTree
  refine ⟨dom, hbuild, ?_⟩
  rw [build, if_pos g.entry_lt, hrun] at hbuild
  simp only [bind_eq_bind, bind_some, bind_eq_some_iff, some_inj] at hbuild
  obtain ⟨idom, -, t, -, counts, -, filled, -, rfl⟩ := hbuild
  refine ⟨ho.nodup, fun b => ho.mem, fun p => ⟨_, children_spec g.entry idom ho.nodup p, filter_sublist, fun b => ?_⟩⟩
  rw [mem_kids, ho.mem]
  constructor
  · rintro ⟨hb, hne, hidom⟩
    exact ⟨hne, (hd.idom_iff hb hne).mp hidom⟩
  · rintro ⟨hne, hp⟩
    exact ⟨hp.1.1.1, hne, (hd.idom_iff hp.1.1.1 hne).mpr hp⟩

/-- Away from the entry the runners pass through the blocks whose frontier the block is in. -/
theorem IsDomTree.runs_iff (hd : IsDomTree g order idom) {b y : ℕ} (hy : y ≠ g.entry) :
    Runs g idom b y ↔ y ∈ g.flow.Frontier b := by
  have htree := hd.converging.toTree
  -- below its immediate dominator a block has only itself
  have hstrict : ∀ {d}, g.flow.Reachable y → idom y = some d →
      (g.flow.StrictlyDominates b y ↔ Above idom d b) := by
    intro d hreach hdy
    have hlt := htree.lt hy hdy
    rw [StrictlyDominates, ← hd.above_iff hreach]
    constructor
    · rintro ⟨habove, hne⟩
      rcases habove.eq_or with h | ⟨c, hc, hcb⟩
      · exact absurd h.symm hne
      · rw [hdy] at hc
        rwa [some.inj hc]
    · refine fun habove => ⟨Above.of_parent hdy habove, ?_⟩
      rintro rfl
      have := htree.rank_le habove
      omega
  constructor
  · rintro ⟨-, p, d, hreach, he, hdy, habove, hnot⟩
    refine ⟨⟨p, he, (hd.above_iff hreach).mp habove⟩, ?_⟩
    rwa [hstrict (hreach.step he) hdy]
  · rintro ⟨⟨p, he, hdom⟩, hnot⟩
    have hreach := hdom.1
    obtain ⟨d, hdy, hnear⟩ := hd.settled (hreach.step he) hy
    rw [hstrict (hreach.step he) hdy] at hnot
    have habove := (hd.above_iff hreach).mpr hdom
    refine ⟨?_, p, d, hreach, he, hdy, habove, hnot⟩
    -- with one predecessor the block is dominated by what dominates the predecessor
    by_contra hfew
    refine hnot ((hnear b).mpr fun q hq _ => ?_)
    have hlt := edge_lt he
    have hp := ((edge_iff_mem_predecessors hlt.2).mp he).2
    have hq := ((edge_iff_mem_predecessors hlt.2).mp hq).2
    obtain ⟨c, hc⟩ := length_eq_one_iff.mp
      (by have := length_pos_of_mem hp; omega :
        (g.blocks.getD y default).predecessors.length = 1)
    rw [hc, mem_singleton] at hp hq
    rw [hq, ← hp]
    exact habove

/-- The frontiers of the reachable blocks are exact and were given enough slots. -/
def FrontierExact (g : FlowGraph) (fuel : ℕ) (dom : DomTree) : Prop :=
  (∀ b, g.flow.Reachable b → (dom.dominanceFrontier b).Nodup ∧
    ∀ y, y ∈ dom.dominanceFrontier b ↔ y ∈ g.flow.Frontier b) ∧
  ∃ reserved, counts g.blocks dom.idom fuel = some reserved ∧ ∀ b, dom.frontierCount b ≤ reserved b

/-- The frontiers are exact when nothing branches to the entry. -/
theorem Built.frontierExact_iff {fuel : ℕ} {dom : DomTree} (h : Built g fuel dom order) :
    FrontierExact g fuel dom ↔ ∀ p, g.flow.Reachable p → ¬ g.flow.edge p g.entry := by
  constructor
  · rintro ⟨hexact, -⟩ p hp he
    -- the entry dominates `p` and nothing strictly dominates the entry
    obtain ⟨d, hde, habove⟩ := h.isTree.above_pred he hp
    have hroot : dom.idom g.entry = some g.entry := h.isTree.converging.root
    rw [hroot] at hde
    rw [← some.inj hde, h.isTree.above_iff hp] at habove
    have hmem : g.entry ∈ g.flow.Frontier g.entry := ⟨⟨p, he, habove⟩, fun hs => hs.2 rfl⟩
    rw [← (hexact g.entry reachable_root).2, h.mem_frontier _ g.entry_lt] at hmem
    obtain ⟨-, q, d', -, -, hd', -, hnot⟩ := hmem
    rw [hroot] at hd'
    rw [← some.inj hd'] at hnot
    exact hnot (Above.refl _)
  · intro hentry
    refine ⟨fun b hb => ⟨h.nodup b, fun y => ?_⟩, h.reserved⟩
    rw [h.mem_frontier b (lt_of_reachable hb)]
    by_cases hy : y = g.entry
    · rw [hy]
      constructor
      · rintro ⟨-, p, d, hp, he, -⟩
        exact absurd he (hentry p hp)
      · rintro ⟨⟨p, he, hdom⟩, -⟩
        exact absurd he (hentry p hdom.1)
    · exact h.isTree.runs_iff hy

/-- The recorded frontiers are exact when no reachable block branches to the entry, and only then. -/
theorem build_frontierExact_iff (g : FlowGraph) :
    ∃ bound, ∀ fuel ≥ bound, ∃ dom, build g.blocks g.entry fuel = some dom ∧
      (FrontierExact g fuel dom ↔ ∀ p, g.flow.Reachable p → ¬ g.flow.edge p g.entry) := by
  obtain ⟨bound, hbound⟩ := build_spec g
  refine ⟨bound, fun fuel hfuel => ?_⟩
  obtain ⟨dom, order, hbuild, h⟩ := hbound fuel hfuel
  exact ⟨dom, hbuild, h.frontierExact_iff⟩

/-- A function that starts with the label of its loop: the second block branches back to the entry. -/
def entryLoop : FlowGraph where
  blocks := [{ firstInstruction := 0, instructionCount := 2, successors := [1], predecessors := [1] },
    { firstInstruction := 2, instructionCount := 1, successors := [0, 2], predecessors := [0] },
    { firstInstruction := 3, instructionCount := 1, successors := [], predecessors := [1] }]
  entry := 0
  entry_lt := by decide
  mirrored := by decide

/-- Both blocks of the loop have the entry in their frontiers, and neither frontier has a block. -/
theorem entryLoop_frontier_missed :
    ¬ ∃ bound, ∀ fuel ≥ bound, ∃ dom, build entryLoop.blocks entryLoop.entry fuel = some dom ∧
      FrontierExact entryLoop fuel dom := by
  rintro ⟨bound, hbound⟩
  obtain ⟨bound', hspec⟩ := build_spec entryLoop
  obtain ⟨dom, hdom, hexact⟩ := hbound (max bound bound') (le_max_left _ _)
  obtain ⟨dom', order, hdom', h⟩ := hspec (max bound bound') (le_max_right _ _)
  rw [hdom] at hdom'
  obtain rfl := Option.some.inj hdom'
  have hstep : entryLoop.flow.edge 0 1 := by
    refine ⟨?_, ?_, ?_⟩ <;> decide
  have hback : entryLoop.flow.edge 1 0 := by
    refine ⟨?_, ?_, ?_⟩ <;> decide
  exact h.frontierExact_iff.mp hexact 1 (Reachable.step reachable_root hstep) hback

end Mettle.Ir.Dom

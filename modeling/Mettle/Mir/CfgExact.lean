import Mettle.Mir.Blocks

/-!
# The cursor's sets are exact

Before every instruction the cursor's live set holds the registers that some control path reads before
writing, and its defined set those that some control path up to there wrote, for every function
without a bit-test branch whose labels resolve.
-/

namespace Mettle.Mir

open Mettle.Lib List

variable {fn : MirFunction} {i s : ℕ} {v : ℤ}

/-! ## Straight-line code -/

namespace MirFunction

/-- Liveness through a sequence of instructions, from the set after it. -/
def through (fn : MirFunction) (l : List ℕ) (after : Finset ℤ) : Finset ℤ :=
  l.foldr (fun i live => (live \ fn.defs i) ∪ fn.uses i) after

/-- Everything a sequence of instructions writes. -/
def written (fn : MirFunction) (l : List ℕ) : Finset ℤ := l.foldl (fun d i => d ∪ fn.defs i) ∅

theorem mem_written {l : List ℕ} : v ∈ fn.written l ↔ ∃ i ∈ l, v ∈ fn.defs i := by
  have hfold : ∀ d : Finset ℤ, v ∈ l.foldl (fun d i => d ∪ fn.defs i) d ↔ v ∈ d ∨ ∃ i ∈ l, v ∈ fn.defs i := by
    induction l with
    | nil => simp
    | cons i rest ih => intro d; simp [ih, or_assoc]
  simp [written, hfold]

/-- The forward pass of `mir_cfg_local_sets`, from any accumulator. -/
theorem localFold (l : List ℕ) (u d after : Finset ℤ) :
    (l.foldl fn.localStep (u, d)).1 ∪ (after \ (l.foldl fn.localStep (u, d)).2) = u ∪ (fn.through l after \ d) ∧
      (l.foldl fn.localStep (u, d)).2 = d ∪ fn.written l := by
  induction l generalizing u d with
  | nil => simp [through, written]
  | cons i rest ih =>
    obtain ⟨hfst, hsnd⟩ := ih (u ∪ (fn.uses i \ d)) (d ∪ fn.defs i)
    rw [foldl_cons, localStep, hfst, hsnd]
    constructor
    · ext v
      simp only [through, foldr_cons, Finset.mem_union, Finset.mem_sdiff]
      tauto
    · ext v
      simp only [Finset.mem_union, mem_written, mem_cons, exists_eq_or_imp]
      tauto

/-- The use and def sets of a block are its liveness transfer. -/
theorem localSets_through (s : ℕ) (after : Finset ℤ) :
    (fn.localSets s).1 ∪ (after \ (fn.localSets s).2) = fn.through (fn.blockInsns s) after := by
  have h := (fn.localFold (fn.blockInsns s) ∅ ∅ after).1
  rwa [Finset.empty_union, Finset.sdiff_empty] at h

/-- The definitions of a block are what its instructions write. -/
theorem localSets_snd (s : ℕ) : (fn.localSets s).2 = fn.written (fn.blockInsns s) := by
  have h := (fn.localFold (fn.blockInsns s) ∅ ∅ ∅).2
  rwa [Finset.empty_union] at h

/-- The instructions of its block from `i` on. -/
def rest (fn : MirFunction) (i : ℕ) : List ℕ := List.range' i (fn.blockEnd (fn.blockOf i) - i)

/-- What is left of a block, before its end. -/
theorem rest_of_lt (h : i < fn.blockEnd (fn.blockOf i)) :
    fn.rest i = i :: range' (i + 1) (fn.blockEnd (fn.blockOf i) - (i + 1)) := by
  rw [rest, show fn.blockEnd (fn.blockOf i) - i = fn.blockEnd (fn.blockOf i) - (i + 1) + 1 by omega, range'_succ]

/-- One instruction, and what is left behind it. -/
theorem rest_succ (h : i + 1 < fn.blockEnd (fn.blockOf i)) : fn.rest i = i :: fn.rest (i + 1) := by
  rw [rest_of_lt (Nat.lt_of_succ_lt h), rest, blockOf_succ h]

/-- At the end only the last instruction is left. -/
theorem rest_last (hi : i < fn.insnCount) (h : ¬ i + 1 < fn.blockEnd (fn.blockOf i)) : fn.rest i = [i] := by
  rw [rest_of_lt (lt_blockEnd_blockOf hi),
    show fn.blockEnd (fn.blockOf i) - (i + 1) = 0 by omega]
  rfl

theorem rest_leader (hs : fn.leader s = true) : fn.rest s = fn.blockInsns s := by
  rw [rest, blockInsns, blockOf_of_leader hs]

end MirFunction

open MirFunction

/-! ## Liveness -/

/-- What is live at the end of a block, as paths. -/
def LiveAtEnd (fn : MirFunction) (s : ℕ) (v : ℤ) : Prop :=
  ∃ j ∈ fn.next (fn.blockEnd s - 1), LiveAt fn j v

/-- Liveness along the rest of a block, from sets sound at its end. -/
theorem liveAt_of_mem_through (hbt : fn.NoBitTest) (hi : i < fn.insnCount) {after : Finset ℤ}
    (hafter : ∀ v ∈ after, LiveAtEnd fn (fn.blockOf i) v) (h : v ∈ fn.through (fn.rest i) after) :
    LiveAt fn i v := by
  -- induction on the instructions left in the block
  induction hk : fn.blockEnd (fn.blockOf i) - i generalizing i with
  | zero =>
    have := lt_blockEnd_blockOf hi
    omega
  | succ k ih =>
    by_cases hlast : i + 1 < fn.blockEnd (fn.blockOf i)
    · rw [rest_succ hlast, through, foldr_cons, Finset.mem_union, Finset.mem_sdiff] at h
      rcases h with ⟨hrest, hdef⟩ | huse
      · have hnext := next_of_lt_blockEnd hbt hi hlast
        have hlt : i + 1 < fn.insnCount :=
          hlast.trans_le (blockEnd_le ((blockOf_le i).trans_lt hi))
        refine .pass (by rw [hnext]; exact mem_singleton_self _) hdef ?_
        exact ih hlt (by rwa [blockOf_succ hlast]) hrest (by rw [blockOf_succ hlast]; omega)
      · exact .read huse
    · rw [rest_last hi hlast, through, foldr_cons, foldr_nil, Finset.mem_union, Finset.mem_sdiff] at h
      rcases h with ⟨hin, hdef⟩ | huse
      · obtain ⟨j, hj, hlive⟩ := hafter v hin
        have hend : fn.blockEnd (fn.blockOf i) - 1 = i := by
          omega
        rw [hend] at hj
        exact .pass hj hdef hlive
      · exact .read huse

/-- The solution of the liveness equations and the path sets bound each other. -/
theorem livenessFlow_above (hbt : fn.NoBitTest) (hlink : ∀ s ∈ fn.leaders, (fn.linkBlock s).isSome) :
    fn.livenessFlow.Above (fun _ => ∅) (fun s => {v | LiveAtEnd fn s v}) (fun s => {v | LiveAt fn s v}) := by
  have hnodes : ∀ s ∈ fn.livenessFlow.nodes, s ∈ fn.leaders := fun s hs => mem_reverse.mp hs
  have hblock : ∀ s ∈ fn.leaders, ∀ after : Finset ℤ, (∀ v ∈ after, LiveAtEnd fn s v) →
      ∀ v ∈ fn.through (fn.blockInsns s) after, LiveAt fn s v := by
    intro s hs after hafter v hv
    obtain ⟨hlt, hleader⟩ := mem_leaders.mp hs
    refine liveAt_of_mem_through hbt hlt ?_ (by rwa [rest_leader hleader])
    rwa [blockOf_of_leader hleader]
  refine ⟨fun b v hv => absurd hv (Finset.notMem_empty v), ?_, ?_, ?_⟩
  · intro s hs e he v hv
    have hmem := (mem_succs_iff hbt (hlink s (hnodes s hs))).mp he
    exact ⟨e, hmem, hv⟩
  · intro s hs v hv
    refine hblock s (hnodes s hs) ∅ nofun v ?_
    rw [← localSets_through]
    exact Finset.mem_union_left _ hv
  · intro s hs v hv hkill
    refine hblock s (hnodes s hs) {v} (fun w hw => ?_) v ?_
    · rwa [Finset.mem_singleton.mp hw]
    · rw [← localSets_through]
      exact Finset.mem_union_right _ (Finset.mem_sdiff.mpr ⟨Finset.mem_singleton_self v, hkill⟩)

/-- Every path from an instruction is in the set the equations give it. -/
theorem mem_through_of_liveAt (hbt : fn.NoBitTest)
    (hlink : ∀ s ∈ fn.leaders, (fn.linkBlock s).isSome) {t : FlowState ℕ ℤ}
    (ht : ∀ s ∈ fn.livenessFlow.nodes, fn.livenessFlow.Solved s t) (h : LiveAt fn i v)
    (hi : i < fn.insnCount) : v ∈ fn.through (fn.rest i) (t.join (fn.blockOf i)) := by
  -- on the path to the read
  induction h with
  | @read i v huse =>
    rw [rest_of_lt (lt_blockEnd_blockOf hi), through, foldr_cons]
    exact Finset.mem_union_right _ huse
  | @pass i j v hj hdef hlive ih =>
    by_cases hlast : i + 1 < fn.blockEnd (fn.blockOf i)
    · rw [next_of_lt_blockEnd hbt hi hlast] at hj
      obtain rfl := mem_singleton.mp hj
      have hlt : i + 1 < fn.insnCount :=
        hlast.trans_le (blockEnd_le ((blockOf_le i).trans_lt hi))
      have hrest := ih hlt
      rw [blockOf_succ hlast] at hrest
      rw [rest_succ hlast, through, foldr_cons]
      exact Finset.mem_union_left _ (Finset.mem_sdiff.mpr ⟨hrest, hdef⟩)
    · -- the path leaves the block: its value there flowed into this block's join
      obtain ⟨hjlt, hjleader⟩ := leader_of_mem_next hi hlast hj
      have hs := blockOf_mem_leaders hi
      have hend : fn.blockEnd (fn.blockOf i) - 1 = i := by
        have := lt_blockEnd_blockOf hi
        omega
      have hsucc : j ∈ fn.succs (fn.blockOf i) := by
        rw [mem_succs_iff hbt (hlink _ hs), hend]
        exact hj
      have hval : v ∈ t.val j := by
        have hj' := ih hjlt
        rw [rest_leader hjleader, blockOf_of_leader hjleader, ← localSets_through] at hj'
        rw [(ht j (mem_reverse.mpr (mem_leaders.mpr ⟨hjlt, hjleader⟩))).val]
        exact hj'
      have hjoin := (ht _ (mem_reverse.mpr hs)).join j hsucc hval
      rw [rest_last hi hlast, through, foldr_cons, foldr_nil]
      exact Finset.mem_union_left _ (Finset.mem_sdiff.mpr ⟨hjoin, hdef⟩)

/-! ## Definedness -/

/-- Some path up to and including instruction `i` wrote `v`. -/
def WrittenAfter (fn : MirFunction) (i : ℕ) (v : ℤ) : Prop := v ∈ fn.defs i ∨ WrittenAt fn i v

/-- What is written on every way to behind an instruction is so at the next one. -/
theorem WrittenAfter.next {j : ℕ} (h : WrittenAfter fn i v) (hj : j ∈ fn.next i) :
    WrittenAt fn j v := by
  rcases h with h | h
  · exact .write hj h
  · exact .pass hj h

namespace MirFunction

/-- The instructions of its block before `i`. -/
def front (fn : MirFunction) (i : ℕ) : List ℕ := List.range' (fn.blockOf i) (i - fn.blockOf i)

/-- One instruction more of a block. -/
theorem front_succ (h : i + 1 < fn.blockEnd (fn.blockOf i)) : fn.front (i + 1) = fn.front i ++ [i] := by
  have hle := fn.blockOf_le i
  rw [front, front, blockOf_succ h, show i + 1 - fn.blockOf i = i - fn.blockOf i + 1 by omega,
    range'_1_concat, Nat.add_sub_of_le hle]

theorem front_leader (hs : fn.leader s = true) : fn.front s = [] := by
  rw [front, blockOf_of_leader hs, Nat.sub_self]
  rfl

/-- A block is what stands before its last instruction, and that instruction. -/
theorem blockInsns_eq_front (hi : i < fn.insnCount) (h : ¬ i + 1 < fn.blockEnd (fn.blockOf i)) :
    fn.blockInsns (fn.blockOf i) = fn.front i ++ [i] := by
  have hle := fn.blockOf_le i
  have hlt := lt_blockEnd_blockOf hi
  rw [blockInsns, front, show fn.blockEnd (fn.blockOf i) - fn.blockOf i = i - fn.blockOf i + 1 by
    omega, range'_1_concat, Nat.add_sub_of_le hle]

theorem written_concat (l : List ℕ) : fn.written (l ++ [i]) = fn.written l ∪ fn.defs i := by
  rw [written, written, foldl_append, foldl_cons, foldl_nil]

end MirFunction

/-- Definedness along a block, from a set sound at its start. -/
theorem writtenAt_of_mem_front (hbt : fn.NoBitTest) (hi : i < fn.insnCount) {before : Finset ℤ}
    (hbefore : ∀ v ∈ before, WrittenAt fn (fn.blockOf i) v)
    (h : v ∈ before ∪ fn.written (fn.front i)) : WrittenAt fn i v := by
  induction i with
  | zero =>
    rw [front_leader (by simp [leader]), written, foldl_nil, Finset.union_empty] at h
    exact hbefore v h
  | succ i ih =>
    by_cases hleader : fn.leader (i + 1) = true
    · rw [front_leader hleader, written, foldl_nil, Finset.union_empty] at h
      rw [blockOf_of_leader hleader] at hbefore
      exact hbefore v h
    · have hblock : fn.blockOf (i + 1) = fn.blockOf i := by rw [blockOf, if_neg hleader]
      have hlast : i + 1 < fn.blockEnd (fn.blockOf i) := by
        rw [← hblock]
        exact lt_blockEnd_blockOf hi
      have hi' := Nat.lt_of_succ_lt hi
      rw [front_succ hlast, written_concat, ← Finset.union_assoc, Finset.mem_union] at h
      rw [hblock] at hbefore
      have hafter : WrittenAfter fn i v := h.elim (fun h => .inr (ih hi' hbefore h)) .inl
      exact hafter.next (by rw [next_of_lt_blockEnd hbt hi' hlast]; exact mem_singleton_self _)

/-- What a block has written at its end. -/
theorem writtenAfter_block (hbt : fn.NoBitTest) (hs : s ∈ fn.leaders) (before : Finset ℤ)
    (hbefore : ∀ v ∈ before, WrittenAt fn s v)
    (h : v ∈ before ∪ fn.written (fn.blockInsns s)) :
    WrittenAfter fn (fn.blockEnd s - 1) v := by
  have hblock := blockOf_blockEnd_sub_one hs
  have hlt := fn.lt_blockEnd s
  have hle := blockEnd_le (mem_leaders.mp hs).1
  have hi : fn.blockEnd s - 1 < fn.insnCount := by omega
  have hfront := blockInsns_eq_front hi (by rw [hblock]; omega)
  rw [hblock] at hfront
  rw [hfront, written_concat, ← Finset.union_assoc, Finset.mem_union] at h
  rcases h with h | h
  · exact .inr (writtenAt_of_mem_front hbt hi (by rwa [hblock]) h)
  · exact .inl h

namespace MirFunction

/-- The walk of the graph only meets blocks. -/
theorem rpoLoop_subset {P : ℕ → Prop} (hsucc : ∀ s, P s → ∀ e ∈ fn.succs s, P e) (fuel : ℕ)
    (stack : List (ℕ × List ℕ)) (seen order : List ℕ)
    (hstack : ∀ b ∈ stack, P b.1 ∧ ∀ e ∈ b.2, P e) (horder : ∀ b ∈ order, P b) :
    ∀ b ∈ fn.rpoLoop fuel stack seen order, P b := by
  induction fuel, stack, seen, order using MirFunction.rpoLoop.induct fn with
  | case1 stack seen order => exact horder
  | case2 fuel seen order hfuel => simpa [rpoLoop] using horder
  | case3 fuel b rest seen order ih =>
    refine ih (fun c hc => hstack c (.tail _ hc)) fun c hc => ?_
    rcases mem_cons.mp hc with rfl | hc
    · exact (hstack _ (mem_cons_self ..)).1
    · exact horder c hc
  | case4 fuel b e es rest seen order hseen ih =>
    rw [rpoLoop, if_pos hseen]
    refine ih (fun c hc => ?_) horder
    rcases mem_cons.mp hc with rfl | hc
    · have htop := hstack _ (mem_cons_self ..)
      exact ⟨htop.1, fun e' he' => htop.2 e' (.tail _ he')⟩
    · exact hstack c (.tail _ hc)
  | case5 fuel b e es rest seen order hseen ih =>
    rw [rpoLoop, if_neg hseen]
    have htop := hstack _ (mem_cons_self ..)
    have he := htop.2 e (mem_cons_self ..)
    refine ih (fun c hc => ?_) horder
    rcases mem_cons.mp hc with rfl | hc
    · exact ⟨he, fun e' he' => hsucc e he e' (mem_reverse.mp he')⟩
    rcases mem_cons.mp hc with rfl | hc
    · exact ⟨htop.1, fun e' he' => htop.2 e' (.tail _ he')⟩
    · exact hstack c (.tail _ hc)

/-- Links lead to blocks. -/
theorem succs_subset (hbt : fn.NoBitTest) (hs : s ∈ fn.leaders)
    (hlink : (fn.linkBlock s).isSome) : ∀ e ∈ fn.succs s, e ∈ fn.leaders := by
  intro e he
  rw [mem_succs_iff hbt hlink] at he
  have hblock := blockOf_blockEnd_sub_one hs
  have hlt := fn.lt_blockEnd s
  have hle := blockEnd_le (mem_leaders.mp hs).1
  exact mem_leaders.mpr (leader_of_mem_next (by omega) (by rw [hblock]; omega) he)

/-- The order of the definedness sweeps has every block and nothing else. -/
theorem mem_order (hbt : fn.NoBitTest) (hne : 0 < fn.insnCount)
    (hlink : ∀ s ∈ fn.leaders, (fn.linkBlock s).isSome) : s ∈ fn.order ↔ s ∈ fn.leaders := by
  have hzero : 0 ∈ fn.leaders := mem_leaders.mpr ⟨hne, by simp [leader]⟩
  have hsucc : ∀ s ∈ fn.leaders, ∀ e ∈ fn.succs s, e ∈ fn.leaders :=
    fun s hs => succs_subset hbt hs (hlink s hs)
  rw [order, mem_append]
  constructor
  · rintro (h | h)
    · refine rpoLoop_subset hsucc _ _ _ _ ?_ (fun b hb => absurd hb not_mem_nil) s h
      intro b hb
      obtain rfl := mem_singleton.mp hb
      exact ⟨hzero, fun e he => hsucc 0 hzero e (mem_reverse.mp he)⟩
    · exact (mem_filter.mp h).1
  · intro h
    by_cases hr : s ∈ fn.rpoOrder
    · exact .inl hr
    · exact .inr (mem_filter.mpr ⟨h, by simpa using hr⟩)

/-- The predecessors are the blocks with an edge to the block. -/
theorem mem_preds {e : ℕ} : e ∈ fn.preds s ↔ e ∈ fn.leaders ∧ s ∈ fn.succs e := by
  simp [preds]

end MirFunction

/-- The definedness equations stay below the paths. -/
theorem definednessFlow_above (hbt : fn.NoBitTest) (hne : 0 < fn.insnCount)
    (hlink : ∀ s ∈ fn.leaders, (fn.linkBlock s).isSome) :
    fn.definednessFlow.Above fn.seedEntryDefs (fun s => {v | WrittenAt fn s v})
      (fun s => {v | WrittenAfter fn (fn.blockEnd s - 1) v}) := by
  have hnodes : ∀ s ∈ fn.definednessFlow.nodes, s ∈ fn.leaders :=
    fun s hs => (mem_order hbt hne hlink).mp hs
  refine ⟨?_, ?_, ?_, ?_⟩
  · intro s v hv
    rw [seedEntryDefs] at hv
    split at hv
    · rename_i hzero
      subst hzero
      exact .entry hv
    · exact absurd hv (Finset.notMem_empty v)
  · intro s hs e he v hv
    obtain ⟨he, hsucc⟩ := mem_preds.mp he
    exact WrittenAfter.next hv ((mem_succs_iff hbt (hlink e he)).mp hsucc)
  · intro s hs v hv
    refine writtenAfter_block hbt (hnodes s hs) ∅ nofun ?_
    rw [← localSets_snd, Finset.empty_union]
    exact hv
  · intro s hs v hv _
    refine writtenAfter_block hbt (hnodes s hs) {v} (fun w hw => ?_) ?_
    · rwa [Finset.mem_singleton.mp hw]
    · exact Finset.mem_union_left _ (Finset.mem_singleton_self v)

/-- Every path that wrote a register is in the set the equations give. -/
theorem mem_front_of_writtenAt (hbt : fn.NoBitTest) (hne : 0 < fn.insnCount)
    (hlink : ∀ s ∈ fn.leaders, (fn.linkBlock s).isSome) {t : FlowState ℕ ℤ}
    (hseed : ∀ s, fn.seedEntryDefs s ⊆ t.join s)
    (ht : ∀ s ∈ fn.definednessFlow.nodes, fn.definednessFlow.Solved s t) (h : WrittenAt fn i v) :
    v ∈ t.join (fn.blockOf i) ∪ fn.written (fn.front i) := by
  -- one step of a path, from what is known before and written by its instruction
  have hstep : ∀ i j, j ∈ fn.next i → v ∈ (t.join (fn.blockOf i) ∪ fn.written (fn.front i)) ∪
      fn.defs i → v ∈ t.join (fn.blockOf j) ∪ fn.written (fn.front j) := by
    intro i j hj h
    have hi : i < fn.insnCount := lt_of_mem_next hj
    by_cases hlast : i + 1 < fn.blockEnd (fn.blockOf i)
    · rw [next_of_lt_blockEnd hbt hi hlast] at hj
      obtain rfl := mem_singleton.mp hj
      rwa [front_succ hlast, blockOf_succ hlast, written_concat, ← Finset.union_assoc]
    · obtain ⟨hjlt, hjleader⟩ := leader_of_mem_next hi hlast hj
      have hs := blockOf_mem_leaders hi
      have hend : fn.blockEnd (fn.blockOf i) - 1 = i := by
        have := lt_blockEnd_blockOf hi
        omega
      have hpred : fn.blockOf i ∈ fn.preds j := by
        rw [mem_preds, mem_succs_iff hbt (hlink _ hs), hend]
        exact ⟨hs, hj⟩
      have hval : v ∈ t.val (fn.blockOf i) := by
        rw [(ht _ ((mem_order hbt hne hlink).mpr hs)).val]
        change v ∈ (fn.localSets (fn.blockOf i)).2 ∪ (t.join (fn.blockOf i) \ ∅)
        rw [localSets_snd, blockInsns_eq_front hi hlast, written_concat, Finset.sdiff_empty]
        simp only [Finset.mem_union] at h ⊢
        tauto
      have hjmem := (mem_order hbt hne hlink).mpr (mem_leaders.mpr ⟨hjlt, hjleader⟩)
      rw [blockOf_of_leader hjleader]
      exact Finset.mem_union_left _ ((ht j hjmem).join _ hpred hval)
  induction h with
  | @entry v hv =>
    refine Finset.mem_union_left _ (hseed 0 ?_)
    simpa [seedEntryDefs] using hv
  | @write i j v hj hv => exact hstep i j hj (Finset.mem_union_right _ hv)
  | @pass i j v hj _ ih => exact hstep i j hj (Finset.mem_union_left _ (ih hstep))

/-! ## The cursor -/

/-- A cursor in block `s` at `pos` whose sets are those of the equations and whose counters count the
definitions of the block before `pos`. -/
structure CursorIn (fn : MirFunction) (cfg : Cfg) (s : ℕ) (cur : Cursor) : Prop where
  block : cur.block = s
  ge : s ≤ cur.pos
  le : cur.pos ≤ fn.blockEnd s
  live : cur.live = fn.through (List.range' cur.pos (fn.blockEnd s - cur.pos)) (cfg.live.join s)
  defd : cur.defd = cfg.defd.join s ∪ fn.written (List.range' s (cur.pos - s))
  count : ∀ v, cur.count v = (List.range' s (cur.pos - s)).countP (fun i => v ∈ fn.defs i)

/-- The count of the definitions of a register in a list of instructions. -/
theorem countDef_fold (l : List ℕ) (c : ℤ → ℤ) (v : ℤ) :
    l.foldl (countDef fn) c v = c v + l.countP (fun i => v ∈ fn.defs i) := by
  induction l generalizing c with
  | nil => simp
  | cons i rest ih =>
    have hone : countDef fn c i v = c v + if v ∈ fn.defs i then 1 else 0 := by
      rw [countDef, MirFunction.defs]
      by_cases hvalid : fn.valid (fn.insn i).defs
      · by_cases hv : v = (fn.insn i).defs
        · subst hv
          simp [hvalid]
        · simp [hvalid, hv]
      · simp [hvalid]
    rw [foldl_cons, ih, hone, countP_cons]
    by_cases hv : v ∈ fn.defs i
    · simp [hv]
      omega
    · simp [hv]

variable {cur : Cursor} {p : ℕ}

/-- The cursor is right at the start of a block. -/
theorem CursorIn.start {cfg : Cfg} (hval : cfg.defd.val s = cfg.defd.join s ∪ fn.written (fn.blockInsns s))
    (hcount : ∀ v, cur.count v = 0) : CursorIn fn cfg s (cursorStartBlock fn cfg cur s) := by
  refine ⟨rfl, (fn.lt_blockEnd s).le, le_rfl, ?_, hval, fun v => ?_⟩
  · simp [cursorStartBlock, through]
  · change (fn.blockInsns s).foldl (countDef fn) cur.count v = _
    rw [countDef_fold, hcount, zero_add]
    rfl

/-- The fields of the cursor after a step back over `p`. -/
theorem cursorStepBack_fields (fn : MirFunction) (cfg : Cfg) (hp : cur.pos = p + 1) (hblock : cur.block ≤ p) :
    (cursorStepBack fn cfg cur).block = cur.block ∧ (cursorStepBack fn cfg cur).pos = p ∧
      (cursorStepBack fn cfg cur).live = (cur.live \ fn.defs p) ∪ fn.uses p ∧
      (∀ v, (cursorStepBack fn cfg cur).count v = cur.count v - if v ∈ fn.defs p then 1 else 0) ∧
      ∀ v, v ∈ (cursorStepBack fn cfg cur).defd ↔ v ∈ cur.defd ∧
        ¬ (v ∈ fn.defs p ∧ cur.count v - 1 = 0 ∧ v ∉ cfg.defd.join cur.block) := by
  have hguard : ¬ (cur.pos = 0 ∨ cur.pos ≤ cur.block) := by omega
  rw [cursorStepBack, if_neg hguard, hp, Nat.add_sub_cancel]
  by_cases hvalid : fn.valid (fn.insn p).defs
  · have hdefs : fn.defs p = {(fn.insn p).defs} := by rw [MirFunction.defs, if_pos hvalid]
    simp only [if_pos hvalid, hdefs, Finset.mem_singleton, Function.update_self]
    refine ⟨trivial, trivial, by rw [Finset.sdiff_singleton_eq_erase], fun v => ?_, fun v => ?_⟩
    · by_cases hv : v = (fn.insn p).defs
      · subst hv
        simp
      · simp [hv]
    · split
      · rename_i hlast
        rw [Finset.mem_erase]
        constructor
        · rintro ⟨hne, hv⟩
          exact ⟨hv, fun h => hne h.1⟩
        · rintro ⟨hv, hnot⟩
          refine ⟨fun heq => hnot ⟨heq, ?_⟩, hv⟩
          rw [heq]
          exact hlast
      · rename_i hmore
        refine ⟨fun hv => ⟨hv, ?_⟩, fun h => h.1⟩
        rintro ⟨rfl, hlast⟩
        exact hmore hlast
  · have hdefs : fn.defs p = ∅ := by rw [MirFunction.defs, if_neg hvalid]
    simp [hvalid, hdefs]

/-- A step back keeps the cursor's sets true. -/
theorem CursorIn.stepBack {cfg : Cfg} (h : CursorIn fn cfg s cur) (hp : cur.pos = p + 1) (hs : s ≤ p) :
    CursorIn fn cfg s (cursorStepBack fn cfg cur) ∧ (cursorStepBack fn cfg cur).pos = p := by
  obtain ⟨hblock, hpos, hlive, hcount, hdefd⟩ :=
    cursorStepBack_fields fn cfg hp (by rw [h.block]; exact hs)
  have hle := h.le
  have hsplit : range' s (cur.pos - s) = range' s (p - s) ++ [p] := by
    rw [show cur.pos - s = p - s + 1 by omega, range'_1_concat, Nat.add_sub_of_le hs]
  have hrest : range' p (fn.blockEnd s - p) = p :: range' cur.pos (fn.blockEnd s - cur.pos) := by
    rw [show fn.blockEnd s - p = fn.blockEnd s - cur.pos + 1 by omega, range'_succ, hp]
  have hold := h.count
  simp only [hsplit, countP_append, countP_singleton, decide_eq_true_eq] at hold
  refine ⟨⟨hblock.trans h.block, by omega, by omega, ?_, ?_, fun v => ?_⟩, hpos⟩
  · rw [hlive, hpos, hrest, through, foldr_cons, h.live]
    rfl
  · ext v
    have hcount : v ∈ fn.defs p → (cur.count v - 1 = 0 ↔ v ∉ fn.written (range' s (p - s))) := by
      intro hv
      rw [hold v, if_pos hv, mem_written]
      simp [countP_eq_zero]
    rw [hdefd, h.defd, hpos, hsplit, written_concat, h.block]
    -- a register defined by `p` stays defined through another definition or from before the block
    by_cases hv : v ∈ fn.defs p
    · rw [hcount hv]
      by_cases hjoin : v ∈ cfg.defd.join s <;>
        by_cases hmore : v ∈ fn.written (range' s (p - s)) <;> simp [hv, hjoin, hmore]
    · simp [hv]
  · rw [hcount, hold v, hpos]
    by_cases hv : v ∈ fn.defs p <;> simp [hv]

/-- The cursor after some steps back. -/
theorem CursorIn.back {cfg : Cfg} (h : CursorIn fn cfg s cur) {k : ℕ} (hk : k ≤ cur.pos - s) :
    CursorIn fn cfg s (cursorBack fn cfg cur k) ∧ (cursorBack fn cfg cur k).pos = cur.pos - k := by
  induction k with
  | zero => exact ⟨h, rfl⟩
  | succ k ih =>
    obtain ⟨hin, hpos⟩ := ih (by omega)
    rw [cursorBack, Function.iterate_succ_apply']
    exact hin.stepBack (by omega) (by omega)

/-- A whole walk leaves the counters at zero. -/
theorem cursorWalk_count {cfg : Cfg} (blocks : List ℕ)
    (hval : ∀ s ∈ blocks, cfg.defd.val s = cfg.defd.join s ∪ fn.written (fn.blockInsns s))
    (hcount : ∀ v, cur.count v = 0) : ∀ v, (cursorWalk fn cfg blocks cur).count v = 0 := by
  induction blocks generalizing cur with
  | nil => exact hcount
  | cons s rest ih =>
    refine ih (fun s' hs' => hval s' (.tail _ hs')) fun v => ?_
    have hstart := CursorIn.start (hval s (mem_cons_self ..)) hcount
    obtain ⟨hin, hpos⟩ := hstart.back (k := fn.blockEnd s - s) le_rfl
    have hend : fn.blockEnd s - (fn.blockEnd s - s) - s = 0 := by omega
    change _ = fn.blockEnd s - (fn.blockEnd s - s) at hpos
    rw [hin.count v, hpos, hend]
    rfl

/-! ## Exactness -/

/-- What a built graph gives. -/
theorem mirCfgBuild_eq_some {cfg : Cfg} (h : mirCfgBuild fn = some cfg) :
    0 < fn.insnCount ∧ (∀ s ∈ fn.leaders, (fn.linkBlock s).isSome) ∧
      fn.livenessFlow.solve fn.sweeps (fun _ => ∅) = some cfg.live ∧
      fn.definednessFlow.solve fn.sweeps fn.seedEntryDefs = some cfg.defd := by
  rw [mirCfgBuild] at h
  split at h
  · cases h
  rename_i hempty
  split at h
  · cases h
  rename_i hlink
  split at h
  · rename_i live defd hlive hdefd
    cases h
    refine ⟨by omega, fun s hs => ?_, hlive, hdefd⟩
    by_contra hnone
    exact hlink (any_eq_true.mpr ⟨s, hs, by simpa using hnone⟩)
  · cases h

/-- The two loops stop: a function with resolvable labels has a graph. -/
theorem exists_mirCfgBuild (hbt : fn.NoBitTest) (hinsns : 0 < fn.insnCount)
    (hvregs : 0 < fn.vregCount) (hlink : ∀ s ∈ fn.leaders, (fn.linkBlock s).isSome) :
    ∃ cfg, mirCfgBuild fn = some cfg := by
  let U : Finset ℤ := (Finset.range fn.vregCount).image fun n : ℕ => (n : ℤ)
  have hU : ∀ v : ℤ, fn.valid v = true → v ∈ U := by
    intro v hv
    simp only [valid, decide_eq_true_eq] at hv
    refine Finset.mem_image.mpr ⟨v.toNat, Finset.mem_range.mpr (by omega), by omega⟩
  have hcard : U.card ≤ fn.vregCount := Finset.card_image_le.trans (Finset.card_range _).le
  have huses : ∀ i, fn.uses i ⊆ U := by
    intro i v hv
    simp only [MirFunction.uses, mem_toFinset, mem_filter] at hv
    exact hU v hv.2
  have hdefs : ∀ i, fn.defs i ⊆ U := by
    intro i v hv
    rw [MirFunction.defs] at hv
    split at hv
    · rename_i hvalid
      rw [Finset.mem_singleton.mp hv]
      exact hU _ hvalid
    · exact absurd hv (Finset.notMem_empty v)
  have hwritten : ∀ s, (fn.localSets s).2 ⊆ U := by
    intro s v hv
    rw [localSets_snd, mem_written] at hv
    obtain ⟨i, -, hi⟩ := hv
    exact hdefs i hi
  have hread : ∀ s, (fn.localSets s).1 ⊆ U := by
    intro s v hv
    have hthrough : v ∈ fn.through (fn.blockInsns s) ∅ := by
      rw [← localSets_through]
      exact Finset.mem_union_left _ hv
    generalize fn.blockInsns s = l at hthrough
    induction l with
    | nil => exact absurd hthrough (Finset.notMem_empty v)
    | cons i rest ih =>
      rw [through, foldr_cons, Finset.mem_union, Finset.mem_sdiff] at hthrough
      rcases hthrough with ⟨h, -⟩ | h
      · exact ih h
      · exact huses i h
  have hentry : ∀ s, fn.seedEntryDefs s ⊆ U := by
    intro s v hv
    rw [seedEntryDefs] at hv
    split at hv
    · simp only [entryDefs, mem_toFinset, mem_filter] at hv
      exact hU v hv.2
    · exact absurd hv (Finset.notMem_empty v)
  -- both loops run over the blocks, once more than there are bits
  have hrounds : ∀ l : List ℕ, (∀ s ∈ l, s ∈ fn.leaders) → l.toFinset.card * U.card < fn.sweeps := by
    intro l hl
    have hlen : l.toFinset.card ≤ fn.leaders.length :=
      (Finset.card_le_card fun s hs => mem_toFinset.mpr (hl s (mem_toFinset.mp hs))).trans fn.leaders.toFinset_card_le
    exact Nat.lt_succ_of_le (Nat.mul_le_mul hlen hcard)
  obtain ⟨live, hlive⟩ := Dataflow.solve_stops (F := fn.livenessFlow) hread
    (fun _ => Finset.empty_subset U) (hrounds _ fun s hs => mem_reverse.mp hs)
  obtain ⟨defd, hdefd⟩ := Dataflow.solve_stops (F := fn.definednessFlow) hwritten hentry
    (hrounds _ fun s hs => (mem_order hbt hinsns hlink).mp hs)
  refine ⟨⟨live, defd⟩, ?_⟩
  rw [mirCfgBuild, if_neg (by omega), if_neg, hlive, hdefd]
  simp only [any_eq_true, not_exists, not_and]
  intro s hs hnone
  have := hlink s hs
  rw [Option.isNone_iff_eq_none.mp hnone] at this
  cases this

section

variable {cfg : Cfg} (hbt : fn.NoBitTest) (h : mirCfgBuild fn = some cfg)
include hbt h

/-- What a built graph has written at the end of a block. -/
theorem defd_val (hs : s ∈ fn.leaders) : cfg.defd.val s = cfg.defd.join s ∪ fn.written (fn.blockInsns s) := by
  obtain ⟨hne, hlink, -, hdefd⟩ := mirCfgBuild_eq_some h
  obtain ⟨-, hsolved⟩ := Dataflow.solve_spec (definednessFlow_above hbt hne hlink) hdefd
  rw [(hsolved s ((mem_order hbt hne hlink).mpr hs)).val, ← localSets_snd, Finset.union_comm]
  change (cfg.defd.join s \ ∅) ∪ _ = _
  rw [Finset.sdiff_empty]
  rfl

/-- The cursor before an instruction is in its block. -/
theorem cursorIn_cursorBefore (hi : i < fn.insnCount) :
    CursorIn fn cfg (fn.blockOf i) (cursorBefore fn cfg i) ∧ (cursorBefore fn cfg i).pos = i := by
  have hzero := cursorWalk_count (fn.leaders.takeWhile (· < fn.blockOf i))
    (fun s hs => defd_val hbt h ((takeWhile_subset _) hs))
    (fun v => (rfl : cursorInit.count v = 0))
  have hstart := CursorIn.start (defd_val hbt h (blockOf_mem_leaders hi)) hzero
  have hlt := lt_blockEnd_blockOf hi
  have hle := fn.blockOf_le i
  have hpos : (cursorStartBlock fn cfg (cursorWalk fn cfg
      (fn.leaders.takeWhile (· < fn.blockOf i)) cursorInit) (fn.blockOf i)).pos
      = fn.blockEnd (fn.blockOf i) := rfl
  obtain ⟨hin, hat⟩ := hstart.back (k := fn.blockEnd (fn.blockOf i) - i) (by omega)
  exact ⟨hin, hat.trans (by omega)⟩

/-- The cursor's live set before an instruction is exactly what some path reads before writing. -/
theorem mem_cursorBefore_live (hi : i < fn.insnCount) : v ∈ (cursorBefore fn cfg i).live ↔ LiveAt fn i v := by
  obtain ⟨hne, hlink, hlive, -⟩ := mirCfgBuild_eq_some h
  obtain ⟨hrunning, hsolved⟩ := Dataflow.solve_spec (livenessFlow_above hbt hlink) hlive
  obtain ⟨hin, hpos⟩ := cursorIn_cursorBefore hbt h hi
  rw [hin.live, hpos]
  exact ⟨fun hv => liveAt_of_mem_through hbt hi (hrunning.join_le _) hv,
    fun hv => mem_through_of_liveAt hbt hlink hsolved hv hi⟩

/-- The cursor's defined set before an instruction is exactly what some path up to it wrote. -/
theorem mem_cursorBefore_defd (hi : i < fn.insnCount) : v ∈ (cursorBefore fn cfg i).defd ↔ WrittenAt fn i v := by
  obtain ⟨hne, hlink, -, hdefd⟩ := mirCfgBuild_eq_some h
  obtain ⟨hrunning, hsolved⟩ := Dataflow.solve_spec (definednessFlow_above hbt hne hlink) hdefd
  obtain ⟨hin, hpos⟩ := cursorIn_cursorBefore hbt h hi
  rw [hin.defd, hpos]
  exact ⟨fun hv => writtenAt_of_mem_front hbt hi (hrunning.join_le _) hv,
    fun hv => mem_front_of_writtenAt hbt hne hlink hrunning.seed_le hsolved hv⟩

end

end Mettle.Mir

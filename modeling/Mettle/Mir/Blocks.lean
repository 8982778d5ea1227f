import Mettle.Mir.Cfg
import Mettle.Mir.Machine

/-!
# Blocks and control transfers

Inside a block control goes from one instruction to the next, and from its last instruction to the
blocks that `mir_cfg_link_block` linked: this needs that the function has no `MIR_BT`, the one branch
the graph does not know.
-/

open List

namespace Mettle.Mir.MirFunction

variable {fn : MirFunction} {i j s : ℕ}

/-- No instruction is a bit-test branch. -/
def NoBitTest (fn : MirFunction) : Prop := ∀ i, (fn.insn i).op ≠ .bt

/-! ## The partition -/

/-- A block starts at or before its instructions. -/
theorem blockOf_le (i : ℕ) : fn.blockOf i ≤ i := by
  induction i with
  | zero => exact le_rfl
  | succ i ih =>
    rw [blockOf]
    split
    · exact le_rfl
    · exact Nat.le_succ_of_le ih

theorem leader_blockOf (i : ℕ) : fn.leader (fn.blockOf i) = true := by
  induction i with
  | zero => simp [blockOf, leader]
  | succ i ih =>
    rw [blockOf]
    split
    · assumption
    · exact ih

theorem blockOf_of_leader (h : fn.leader i = true) : fn.blockOf i = i := by
  cases i with
  | zero => rfl
  | succ i => rw [blockOf, if_pos h]

/-- Between its leader and an instruction there is no other leader. -/
theorem not_leader_of_blockOf_lt (hlt : fn.blockOf i < j) (hj : j ≤ i) : fn.leader j = false := by
  induction i with
  | zero => omega
  | succ i ih =>
    rw [blockOf] at hlt
    split at hlt
    · omega
    · rename_i hleader
      by_cases h : j = i + 1
      · subst h
        simpa using hleader
      · exact ih hlt (by omega)

/-- The scan stops at the first leader or after all instructions. -/
theorem nextLeader_spec (k i : ℕ) :
    i ≤ fn.nextLeader k i ∧ fn.nextLeader k i ≤ i + k ∧
      (∀ j, i ≤ j → j < fn.nextLeader k i → fn.leader j = false) ∧
      (fn.nextLeader k i < i + k → fn.leader (fn.nextLeader k i) = true) := by
  induction k generalizing i with
  | zero => exact ⟨le_rfl, le_rfl, fun j h₁ h₂ => absurd h₂ (Nat.not_lt.mpr h₁), fun h => by
      exact absurd h (lt_irrefl _)⟩
  | succ k ih =>
    rw [nextLeader]
    split
    · rename_i h
      exact ⟨le_rfl, by omega, fun j h₁ h₂ => absurd h₂ (Nat.not_lt.mpr h₁), fun _ => h⟩
    · rename_i h
      obtain ⟨h₁, h₂, h₃, h₄⟩ := ih (i + 1)
      refine ⟨by omega, by omega, fun j hij hj => ?_, fun hlt => h₄ (by omega)⟩
      by_cases hji : j = i
      · subst hji
        simpa using h
      · exact h₃ j (by omega) hj

theorem lt_blockEnd (s : ℕ) : s < fn.blockEnd s := (fn.nextLeader_spec _ (s + 1)).1

theorem blockEnd_le (hs : s < fn.insnCount) : fn.blockEnd s ≤ fn.insnCount := by
  have := (fn.nextLeader_spec (fn.insnCount - (s + 1)) (s + 1)).2.1
  rw [blockEnd]
  omega

/-- The instructions of a block after the first are no leaders. -/
theorem not_leader_of_lt_blockEnd (hlt : s < j) (hj : j < fn.blockEnd s) : fn.leader j = false :=
  (fn.nextLeader_spec _ (s + 1)).2.2.1 j hlt hj

/-- A block ends at a leader or at the end of the function. -/
theorem leader_blockEnd (h : fn.blockEnd s < fn.insnCount) : fn.leader (fn.blockEnd s) = true := by
  refine (fn.nextLeader_spec _ (s + 1)).2.2.2 ?_
  rw [blockEnd] at h
  omega

/-- An instruction lies in its block. -/
theorem lt_blockEnd_blockOf (hi : i < fn.insnCount) : i < fn.blockEnd (fn.blockOf i) := by
  by_contra hend
  have hlt : fn.blockEnd (fn.blockOf i) < fn.insnCount := by omega
  have hnot := not_leader_of_blockOf_lt (lt_blockEnd (fn.blockOf i)) (Nat.le_of_not_lt hend)
  rw [leader_blockEnd hlt] at hnot
  cases hnot

/-- The next instruction of a block is in the same block. -/
theorem blockOf_succ (h : i + 1 < fn.blockEnd (fn.blockOf i)) :
    fn.blockOf (i + 1) = fn.blockOf i := by
  have hnot : fn.leader (i + 1) = false :=
    not_leader_of_lt_blockEnd (Nat.lt_succ_of_le (blockOf_le i)) h
  rw [blockOf, if_neg (by simp [hnot])]

/-- The leaders are the instructions that start a block. -/
theorem mem_leaders : s ∈ fn.leaders ↔ s < fn.insnCount ∧ fn.leader s = true := by
  rw [leaders, mem_filter, mem_range]

/-- Every instruction is in the block of a leader. -/
theorem blockOf_mem_leaders (hi : i < fn.insnCount) : fn.blockOf i ∈ fn.leaders :=
  mem_leaders.mpr ⟨(blockOf_le i).trans_lt hi, leader_blockOf i⟩

/-! ## Transfers -/

/-- Inside a block control goes to the next instruction only. -/
theorem next_of_lt_blockEnd (hbt : fn.NoBitTest) (hi : i < fn.insnCount)
    (h : i + 1 < fn.blockEnd (fn.blockOf i)) : fn.next i = [i + 1] := by
  have hnot : fn.leader (i + 1) = false :=
    not_leader_of_lt_blockEnd (Nat.lt_succ_of_le (blockOf_le i)) h
  have hend : i + 1 < fn.insnCount :=
    h.trans_le (blockEnd_le ((blockOf_le i).trans_lt hi))
  simp only [leader, Nat.add_sub_cancel, decide_eq_false_iff_not, not_or, Inst.endsBlock,
    decide_eq_true_eq] at hnot
  obtain ⟨-, -, hjmp, hjcc, hcmpbr, hfcmpbr, htable, hret, htrap⟩ := hnot
  have hbt := hbt i
  simp [next, targets, falls, Inst.isCondBranch, hjmp, hjcc, hcmpbr, hfcmpbr, htable, hret, htrap,
    hbt, hend]

/-- A resolved label starts a block. -/
theorem leader_of_labelFind {name : Option String} (h : fn.labelFind name = some j) :
    j < fn.insnCount ∧ fn.leader j = true := by
  cases name with
  | none => cases h
  | some name =>
    obtain ⟨hlt, hlabel, -⟩ := findIdx?_eq_some_iff_getElem.mp h
    have hinsn : fn.insn j = fn.insns[j] := by
      rw [insn, getD_eq_getElem?_getD, List.getElem?_eq_getElem hlt, Option.getD_some]
    rw [Bool.and_eq_true] at hlabel
    refine ⟨hlt, ?_⟩
    simp only [leader, hinsn, hlabel.1, true_or, or_true, decide_true]

/-- The labels of `mir_cfg_link_block` are the encoder's targets, bit tests apart. -/
theorem targets_eq_linkLabels (hbt : (fn.insn i).op ≠ .bt) {labels : List (Option String)}
    (h : (linkLabels (fn.insn i)).1 = some labels) :
    fn.targets i = labels.map fn.labelFind ∧ (linkLabels (fn.insn i)).2 = fn.falls i := by
  simp only [linkLabels] at h ⊢
  split at h
  · rename_i hop
    cases h
    simp [targets, falls, hop]
  split at h
  · rename_i hjmp hop
    cases h
    have hfalls : fn.falls i = true := by
      simp only [Inst.isCondBranch, decide_eq_true_eq] at hop
      rcases hop with hop | hop | hop <;> simp [falls, hop]
    simp [targets, hjmp, hop, hfalls]
  split at h
  · rename_i hjmp hcond hop
    simp only at h
    simp [targets, falls, hop, hcond, h]
  split at h
  · rename_i hjmp hcond htable hop
    cases h
    simp [targets, falls, hjmp, hcond, htable, hbt, hop]
  · rename_i hjmp hcond htable hop
    cases h
    simp [targets, falls, hjmp, hcond, htable, hbt, hop]

/-- From its last instruction a block goes exactly to the blocks it is linked to. -/
theorem mem_succs_iff (hbt : fn.NoBitTest) (hlink : (fn.linkBlock s).isSome) :
    j ∈ fn.succs s ↔ j ∈ fn.next (fn.blockEnd s - 1) := by
  obtain ⟨l, hl⟩ := Option.isSome_iff_exists.mp hlink
  have hend : fn.blockEnd s - 1 + 1 = fn.blockEnd s := Nat.sub_add_cancel
    (Nat.one_le_of_lt (lt_blockEnd s))
  rw [succs, hl, Option.getD_some]
  simp only [linkBlock] at hl
  split at hl
  · cases hl
  rename_i labels hlabels
  split at hl
  · cases hl
  rename_i found hfound
  cases hl
  obtain ⟨htargets, hfalls⟩ := targets_eq_linkLabels (hbt _) hlabels
  have hmap := Lib.map_of_mapM hfound
  -- every resolved label is a leader, so it names its own block
  have hself : found.map fn.blockOf = found := by
    refine (map_congr_left fun t ht => ?_).trans (map_id _)
    have hmem : some t ∈ labels.map fn.labelFind := by
      rw [hmap]
      exact mem_map_of_mem ht
    obtain ⟨name, -, hname⟩ := mem_map.mp hmem
    exact blockOf_of_leader (leader_of_labelFind hname).2
  rw [next, htargets, hmap, hend, hself, hfalls]
  simp

/-- Control only enters a block at its start. -/
theorem leader_of_mem_next (hi : i < fn.insnCount)
    (hlast : ¬ i + 1 < fn.blockEnd (fn.blockOf i)) (hj : j ∈ fn.next i) :
    j < fn.insnCount ∧ fn.leader j = true := by
  have hend : i + 1 = fn.blockEnd (fn.blockOf i) :=
    le_antisymm (lt_blockEnd_blockOf hi) (Nat.le_of_not_lt hlast)
  rw [next, mem_append] at hj
  rcases hj with hj | hj
  · obtain ⟨t, ht, hid⟩ := mem_filterMap.mp hj
    obtain rfl : t = some j := hid
    simp only [targets] at ht
    split at ht
    · exact leader_of_labelFind (mem_singleton.mp ht).symm
    split at ht
    · obtain ⟨name, -, hname⟩ := mem_map.mp ht
      exact leader_of_labelFind hname
    · exact absurd ht not_mem_nil
  · split at hj
    · rename_i hfall
      obtain rfl := mem_singleton.mp hj
      refine ⟨hfall.2, ?_⟩
      rw [hend]
      exact leader_blockEnd (hend ▸ hfall.2)
    · exact absurd hj not_mem_nil

/-- The instructions of a block belong to it. -/
theorem blockOf_of_lt_blockEnd (hs : s ∈ fn.leaders) (hle : s ≤ i) (hi : i < fn.blockEnd s) :
    fn.blockOf i = s := by
  obtain ⟨hlt, hleader⟩ := mem_leaders.mp hs
  induction i, hle using Nat.le_induction with
  | base => exact blockOf_of_leader hleader
  | succ i hle ih =>
    have hprev := ih (by omega)
    rw [blockOf_succ (by rw [hprev]; exact hi), hprev]

/-- The last instruction of a block belongs to it. -/
theorem blockOf_blockEnd_sub_one (hs : s ∈ fn.leaders) : fn.blockOf (fn.blockEnd s - 1) = s := by
  have hlt := fn.lt_blockEnd s
  exact blockOf_of_lt_blockEnd hs (by omega) (by omega)

end Mettle.Mir.MirFunction

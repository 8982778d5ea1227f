import Mettle.Lib.Sweep
import Mettle.Mir.Blocks
import Mettle.Mir.Liveness

/-!
# What the block analysis of the live intervals computes

`mir_live_cfg_build` without `precise_defs`, against control paths: a register is in `live_in` of a block if and only
if some path from there names it before the one definition that the analysis counts. It lets control go everywhere the
encoder does, the target of a bit test aside, so a live register is found unless that definition is no definition.
-/

open List Option Function

namespace Mettle.Mir

open Mettle.Lib

namespace MirFunction

variable (fn : MirFunction)

/-! ## Paths -/

/-- Where the analysis lets control go: a bit test only falls through. -/
def liveNext (i : ℕ) : List ℕ :=
  if (fn.insn i).op = .bt then if i + 1 < fn.insnCount then [i + 1] else [] else fn.next i

/-- The first mention of a register, on a dropped instruction or not, is a destination, and nothing comes in. -/
def Introduces (i : ℕ) (v : ℤ) : Prop :=
  v ∉ fn.liveEntries ∧ ((fn.insn i).dst.kind = .vreg ∧ (fn.insn i).dst.vreg = v) ∧ ∀ j < i, v ∉ fn.operandVregs j

/-- The instruction names a register, other than to introduce it. -/
def Names (i : ℕ) (v : ℤ) : Prop :=
  v ∈ (fn.insn i).a.vregs ∨ v ∈ (fn.insn i).b.vregs ∨ (v ∈ (fn.insn i).dst.vregs ∧ ¬ fn.Introduces i v)

/-- Some path from instruction `i` names the register and is not past its introduction by then. -/
inductive Awaited : ℕ → ℤ → Prop
  | named {i : ℕ} {v : ℤ} : fn.valid v = true → fn.Names i v → Awaited i v
  | pass {i j : ℕ} {v : ℤ} : j ∈ fn.liveNext i → ¬ fn.Introduces i v → Awaited j v → Awaited i v

/-- The labels of an instruction do not resolve. -/
def Unlinked (i : ℕ) : Prop := ((linkLabels (fn.insn i)).1.bind fun labels => labels.mapM fn.labelFind) = none

/-- There is no graph: the function is too large, or a label does not resolve. -/
def NoGraph : Prop :=
  liveCfgMaxWork < fn.insnCount * ((fn.vregCount + 63) / 64) ∨ ∃ i < fn.insnCount, fn.Unlinked i

/-- A register looks live at a header: it is awaited there, or nothing is known. -/
def LooksLive (l : ℕ) (v : ℤ) : Prop := fn.NoGraph ∨ fn.Awaited l v

/-- The analysis can miss a live register: control goes to the target of a bit test, or the register is introduced by
an instruction that is dropped or reads it. -/
def Overlooks (v : ℤ) : Prop :=
  (∃ i, (fn.insn i).op = .bt) ∨ ∃ i, fn.Introduces i v ∧ ((fn.insn i).op = .nop ∨ (fn.insn i).readsDst = true)

variable {fn} {i j s : ℕ} {v : ℤ} {st : Intervals}

/-- What is introduced at an instruction is among its operands. -/
theorem Introduces.mem (h : fn.Introduces i v) : v ∈ fn.operandVregs i := by
  simp [operandVregs, Operand.vregs, h.2.1.1, h.2.1.2]

theorem Awaited.valid (h : fn.Awaited i v) : fn.valid v = true := by
  induction h with
  | named h _ => exact h
  | pass _ _ _ ih => exact ih

/-! ## Blocks -/

/-- What has operands is an instruction of the function. -/
theorem lt_of_mem_operandVregs (h : v ∈ fn.operandVregs i) : i < fn.insnCount := by
  by_contra hi
  simp [operandVregs, insn_of_le (Nat.le_of_not_lt hi), Operand.vregs] at h

/-- The leaders are the instructions that start a block. -/
theorem mem_liveLeaders : s ∈ fn.liveLeaders ↔ s < fn.insnCount ∧ fn.liveLeader s = true := by
  rw [liveLeaders, mem_filter, mem_range]

/-- A block starts at or before its instructions. -/
theorem liveBlockOf_le (i : ℕ) : fn.liveBlockOf i ≤ i := by
  induction i with
  | zero => exact le_rfl
  | succ i ih =>
    rw [liveBlockOf]
    split
    · exact le_rfl
    · exact Nat.le_succ_of_le ih

theorem liveLeader_liveBlockOf (i : ℕ) : fn.liveLeader (fn.liveBlockOf i) = true := by
  induction i with
  | zero => simp [liveBlockOf, liveLeader]
  | succ i ih =>
    rw [liveBlockOf]
    split
    · assumption
    · exact ih

theorem liveBlockOf_of_liveLeader (h : fn.liveLeader i = true) : fn.liveBlockOf i = i := by
  cases i with
  | zero => rfl
  | succ i => rw [liveBlockOf, if_pos h]

/-- Between the start of its block and an instruction no block starts. -/
theorem not_liveLeader_of_liveBlockOf_lt (hlt : fn.liveBlockOf i < j) (hj : j ≤ i) : fn.liveLeader j = false := by
  induction i with
  | zero => omega
  | succ i ih =>
    rw [liveBlockOf] at hlt
    split at hlt
    · omega
    · rename_i hleader
      by_cases h : j = i + 1
      · subst h
        simpa using hleader
      · exact ih hlt (by omega)

/-- A block ends after its start, at the next leader or with the function. -/
theorem liveBlockEnd_spec (hs : s < fn.insnCount) : s < fn.liveBlockEnd s ∧ fn.liveBlockEnd s ≤ fn.insnCount ∧
    (∀ j, s < j → j < fn.liveBlockEnd s → fn.liveLeader j = false) ∧
    (fn.liveBlockEnd s < fn.insnCount → fn.liveLeader (fn.liveBlockEnd s) = true) := by
  unfold liveBlockEnd
  cases hfind : (range' (s + 1) (fn.insnCount - (s + 1))).find? fn.liveLeader with
  | none =>
    have hnone := find?_range'_eq_none.mp hfind
    refine ⟨hs, le_rfl, fun j hj hlt => ?_, fun h => absurd h (lt_irrefl _)⟩
    rw [Option.getD_none] at hlt
    simpa using hnone j hj (by omega)
  | some e =>
    obtain ⟨hleader, hmem, hfirst⟩ := find?_range'_eq_some.mp hfind
    obtain ⟨hle, hlt⟩ := mem_range'_1.mp hmem
    rw [Option.getD_some]
    exact ⟨hle, by omega, fun j hj hlt => by simpa using hfirst j hj hlt, fun _ => hleader⟩

/-- An instruction that ends a block is the last of its block. -/
theorem exists_liveBlockEnd_eq (hi : i < fn.insnCount) (hends : (fn.insn i).endsBlock = true) :
    ∃ s ∈ fn.liveLeaders, fn.liveBlockEnd s = i + 1 := by
  have hle := fn.liveBlockOf_le i
  have hs : fn.liveBlockOf i < fn.insnCount := by omega
  obtain ⟨hlt, hend, hnot, hleader⟩ := liveBlockEnd_spec hs
  have hnext : fn.liveLeader (i + 1) = true := by simp [liveLeader, hends]
  refine ⟨_, mem_liveLeaders.mpr ⟨hs, liveLeader_liveBlockOf i⟩, ?_⟩
  rcases Nat.lt_trichotomy (fn.liveBlockEnd (fn.liveBlockOf i)) (i + 1) with h | h | h
  · have := hleader (by omega)
    rw [not_liveLeader_of_liveBlockOf_lt hlt (by omega)] at this
    cases this
  · exact h
  · rw [hnot (i + 1) (by omega) h] at hnext
    cases hnext

/-- Inside a block the analysis goes to the next instruction only. -/
theorem liveNext_of_lt (hs : s < fn.insnCount) (hle : s ≤ i) (hlt : i + 1 < fn.liveBlockEnd s) :
    fn.liveNext i = [i + 1] := by
  obtain ⟨-, hend, hnot, -⟩ := liveBlockEnd_spec hs
  have hleader := hnot (i + 1) (by omega) hlt
  have hi : i + 1 < fn.insnCount := by omega
  simp only [liveLeader, Nat.add_sub_cancel, decide_eq_false_iff_not, not_or, Inst.endsBlock,
    decide_eq_true_eq] at hleader
  obtain ⟨-, -, hjmp, hjcc, hcmpbr, hfcmpbr, htable, hret, htrap⟩ := hleader
  by_cases hbt : (fn.insn i).op = .bt
  · rw [liveNext, if_pos hbt, if_pos hi]
  · rw [liveNext, if_neg hbt]
    simp [next, targets, falls, Inst.isCondBranch, hjmp, hjcc, hcmpbr, hfcmpbr, htable, hret, htrap, hbt, hi]

/-- A resolved label starts a block. -/
theorem liveLeader_of_labelFind {name : Option String} (h : fn.labelFind name = some j) :
    j ∈ fn.liveLeaders := by
  cases name with
  | none => cases h
  | some name =>
    obtain ⟨hlt, hlabel, -⟩ := findIdx?_eq_some_iff_getElem.mp h
    have hinsn : fn.insn j = fn.insns[j] := by
      rw [insn, getD_eq_getElem?_getD, List.getElem?_eq_getElem hlt, Option.getD_some]
    rw [Bool.and_eq_true] at hlabel
    have hop : (fn.insn j).op = .label := by
      have := hlabel.1
      simp only [Inst.isLabel, decide_eq_true_eq] at this
      rw [hinsn]
      exact this.1
    exact mem_liveLeaders.mpr ⟨hlt, by simp [liveLeader, hop]⟩

/-- The successors of a block are where the analysis goes from its last instruction, and blocks. -/
theorem mem_liveLink (hs : s < fn.insnCount) {succs : List ℕ} (h : fn.liveLink s = some succs) :
    (j ∈ succs ↔ j ∈ fn.liveNext (fn.liveBlockEnd s - 1)) ∧ (j ∈ succs → j ∈ fn.liveLeaders) := by
  obtain ⟨hlt, -, -, hleader⟩ := liveBlockEnd_spec hs
  have hend : fn.liveBlockEnd s - 1 + 1 = fn.liveBlockEnd s := by omega
  simp only [liveLink] at h
  obtain ⟨found, hfound, rfl⟩ := map_eq_some_iff.mp h
  obtain ⟨labels, hlabels, hfound⟩ := bind_eq_some_iff.mp hfound
  have hmap := map_of_mapM hfound
  have hlabel : ∀ l ∈ found, l ∈ fn.liveLeaders := by
    intro l hl
    have hmem : some l ∈ labels.map fn.labelFind := by
      rw [hmap]
      exact mem_map_of_mem hl
    obtain ⟨name, -, hname⟩ := mem_map.mp hmem
    exact liveLeader_of_labelFind hname
  -- a label starts a block, so it names its own
  have hself : found.map fn.liveBlockOf = found :=
    (map_congr_left fun l hl => liveBlockOf_of_liveLeader (mem_liveLeaders.mp (hlabel l hl)).2).trans (map_id _)
  rw [hself]
  refine ⟨?_, fun hj => ?_⟩
  · by_cases hbt : (fn.insn (fn.liveBlockEnd s - 1)).op = .bt
    · have hlink : linkLabels (fn.insn (fn.liveBlockEnd s - 1)) = (some [], true) := by
        simp [linkLabels, Inst.isCondBranch, hbt]
      rw [hlink] at hlabels
      obtain rfl := Option.some.inj hlabels
      obtain rfl : found = [] := by simpa using hmap.symm
      rw [liveNext, if_pos hbt, hlink, hend]
      simp
    · obtain ⟨htargets, hfalls⟩ := targets_eq_linkLabels hbt hlabels
      rw [liveNext, if_neg hbt, next, htargets, hmap, hfalls, hend]
      simp
  · rcases mem_append.mp hj with hj | hj
    · exact hlabel j hj
    · split at hj
      · rename_i hfall
        rw [mem_singleton.mp hj]
        exact mem_liveLeaders.mpr ⟨hfall.2, hleader hfall.2⟩
      · cases hj

/-! ## The sets of a block -/

/-- The sets are those of the notes on entry. -/
def KnowsEntry (fn : MirFunction) (st : Intervals) (v : ℤ) : Prop :=
  (st v).any LiveInterval.entryLive = true ↔ v ∈ fn.liveEntries

/-- The definition that the analysis counts. -/
theorem killable_iff (hentry : fn.KnowsEntry st v) :
    fn.killable st v = true ∧ fn.firstDst v = some i ↔ fn.Introduces i v := by
  unfold KnowsEntry at hentry
  rw [killable, decide_eq_true_eq, hentry]
  constructor
  · rintro ⟨⟨-, heq, hin⟩, hdst⟩
    obtain ⟨hplain, -, -⟩ := find?_range_eq_some.mp hdst
    obtain ⟨-, -, hfirst⟩ := find?_range_eq_some.mp (heq ▸ hdst)
    exact ⟨hin, by simpa using hplain, fun j hj => by simpa using hfirst j hj⟩
  · rintro h
    have hmem := h.mem
    obtain ⟨hin, hplain, hfirst⟩ := h
    have hi := mem_range.mpr (lt_of_mem_operandVregs hmem)
    have hdst : fn.firstDst v = some i := by
      refine find?_range_eq_some.mpr ⟨by simpa using hplain, hi, fun j hj => ?_⟩
      have hnot := hfirst j hj
      simp only [Bool.not_eq_eq_eq_not, Bool.not_true, decide_eq_false_iff_not]
      rintro ⟨hkind, hreg⟩
      exact hnot (by simp [operandVregs, Operand.vregs, hkind, hreg])
    have hany : fn.firstAny v = some i :=
      find?_range_eq_some.mpr ⟨by simpa using hmem, hi, fun j hj => by simpa using hfirst j hj⟩
    exact ⟨⟨by rw [hdst]; rfl, by rw [hdst, hany], hin⟩, hdst⟩

/-- The uses that an operand adds: registers not defined in the block before, but for a destination that is only
written. -/
theorem mem_liveNoteUses {skip : Bool} {acc : Finset ℤ × Finset ℤ} {o : Operand} (hvalid : fn.valid v = true) :
    v ∈ (fn.liveNoteUses skip acc o).1 ↔
      v ∈ acc.1 ∨ v ∉ acc.2 ∧ v ∈ o.vregs ∧ ¬ (skip = true ∧ o.kind = .vreg) := by
  unfold liveNoteUses
  split
  · rename_i h
    simp [h]
  · rename_i h
    simp only [Finset.mem_union, Finset.mem_sdiff, List.mem_toFinset, List.mem_filter, hvalid, and_true, h, not_false_eq_true]
    tauto

/-- Noting uses defines nothing. -/
@[simp] theorem liveNoteUses_snd (skip : Bool) (acc : Finset ℤ × Finset ℤ) (o : Operand) :
    (fn.liveNoteUses skip acc o).2 = acc.2 := by
  unfold liveNoteUses
  split <;> rfl

/-- One instruction adds to the uses what it names, and to the definitions what it introduces. -/
theorem mem_liveLocalStep (hentry : fn.KnowsEntry st v) (hvalid : fn.valid v = true) (acc : Finset ℤ × Finset ℤ)
    (i : ℕ) : (v ∈ (fn.liveLocalStep st acc i).1 ↔ v ∈ acc.1 ∨ v ∉ acc.2 ∧ fn.Names i v) ∧
      (v ∈ (fn.liveLocalStep st acc i).2 ↔ v ∈ acc.2 ∨ fn.Introduces i v) := by
  -- what the three notes add: the register is read here and was not defined before
  have hnotes : v ∈ (fn.liveNoteUses false (fn.liveNoteUses false (fn.liveNoteUses true acc (fn.insn i).dst)
      (fn.insn i).a) (fn.insn i).b).1 ↔ v ∈ acc.1 ∨ v ∉ acc.2 ∧ (v ∈ (fn.insn i).a.vregs ∨ v ∈ (fn.insn i).b.vregs ∨
        v ∈ (fn.insn i).dst.vregs ∧ (fn.insn i).dst.kind ≠ .vreg) := by
    simp only [mem_liveNoteUses hvalid, liveNoteUses_snd, Bool.false_eq_true, false_and, not_false_eq_true, and_true,
      true_and]
    tauto
  have hsnd : (fn.liveNoteUses false (fn.liveNoteUses false (fn.liveNoteUses true acc (fn.insn i).dst)
      (fn.insn i).a) (fn.insn i).b).2 = acc.2 := by
    simp only [liveNoteUses_snd]
  unfold liveLocalStep Names
  simp only
  generalize fn.liveNoteUses false (fn.liveNoteUses false (fn.liveNoteUses true acc (fn.insn i).dst)
    (fn.insn i).a) (fn.insn i).b = noted at hnotes hsnd
  by_cases hplain : (fn.insn i).dst.kind = .vreg ∧ (fn.insn i).dst.vreg = v
  · -- the destination is the register itself
    have hmem : v ∈ (fn.insn i).dst.vregs := by simp [Operand.vregs, hplain.1, hplain.2]
    rw [hplain.2, if_pos ⟨hplain.1, hvalid⟩]
    simp only [hmem, hplain.1, ne_eq, not_true_eq_false, and_false, or_false, true_and] at hnotes ⊢
    by_cases hintro : fn.Introduces i v
    · rw [if_pos ((killable_iff hentry).mpr hintro)]
      simp only [hintro, not_true_eq_false, or_false, or_true, iff_true]
      exact ⟨hnotes, Finset.mem_insert_self ..⟩
    · rw [if_neg fun h => hintro ((killable_iff hentry).mp h)]
      simp only [hintro, not_false_eq_true, or_true, and_true, or_false]
      by_cases hdef : v ∈ acc.2
      · rw [if_pos (hsnd ▸ hdef), hsnd, hnotes]
        simp [hdef]
      · rw [if_neg (hsnd ▸ hdef)]
        exact ⟨iff_of_true (Finset.mem_insert_self ..) (.inr hdef), by rw [hsnd]⟩
  -- the destination is not the register, so only the operands count
  · have hnot : ¬ fn.Introduces i v := fun h => hplain h.2.1
    have hdst : v ∈ (fn.insn i).dst.vregs → (fn.insn i).dst.kind ≠ .vreg := by
      intro h hkind
      simp only [Operand.vregs, hkind, mem_singleton] at h
      exact hplain ⟨hkind, h.symm⟩
    have hnotes : v ∈ noted.1 ↔ v ∈ acc.1 ∨ v ∉ acc.2 ∧ (v ∈ (fn.insn i).a.vregs ∨ v ∈ (fn.insn i).b.vregs ∨
        v ∈ (fn.insn i).dst.vregs ∧ ¬ fn.Introduces i v) := by
      rw [hnotes]
      tauto
    rw [← hnotes, ← hsnd]
    simp only [hnot, or_false]
    split
    · rename_i h
      have hne : v ≠ (fn.insn i).dst.vreg := fun heq => hplain ⟨h.1, heq.symm⟩
      split
      · simp [hne]
      · split <;> simp [hne]
    · exact ⟨Iff.rfl, Iff.rfl⟩

/-- Some instruction of a list names the register and none introduces it before; or none does at all, and `P`. -/
def AwaitedIn (fn : MirFunction) (v : ℤ) (P : Prop) : List ℕ → Prop
  | [] => P
  | i :: is => fn.Names i v ∨ ¬ fn.Introduces i v ∧ AwaitedIn fn v P is

/-- The sets of a block say which registers it lets through. -/
theorem mem_liveLocalFold (hentry : fn.KnowsEntry st v) (hvalid : fn.valid v = true) (P : Prop) (is : List ℕ)
    (acc : Finset ℤ × Finset ℤ) :
    (v ∈ (is.foldl (fn.liveLocalStep st) acc).1 ∨ v ∉ (is.foldl (fn.liveLocalStep st) acc).2 ∧ P) ↔
      v ∈ acc.1 ∨ v ∉ acc.2 ∧ fn.AwaitedIn v P is := by
  induction is generalizing acc with
  | nil => exact Iff.rfl
  | cons i is ih =>
    obtain ⟨huse, hdef⟩ := mem_liveLocalStep hentry hvalid acc i
    rw [foldl_cons, ih, huse, hdef, AwaitedIn]
    tauto

/-- What a block uses, or lets through from behind it, is what is awaited in it. -/
theorem mem_liveLocalSets (hentry : fn.KnowsEntry st v) (hvalid : fn.valid v = true) (P : Prop) (s : ℕ) :
    (v ∈ (fn.liveLocalSets st s).1 ∨ v ∉ (fn.liveLocalSets st s).2 ∧ P) ↔
      fn.AwaitedIn v P (range' s (fn.liveBlockEnd s - s)) := by
  rw [liveLocalSets, mem_liveLocalFold hentry hvalid]
  simp

/-- The registers that the block sets can hold. -/
def vregSet (fn : MirFunction) : Finset ℤ := (Finset.range fn.vregCount).image (fun v : ℕ => (v : ℤ))

/-- There are no more valid registers than registers. -/
theorem card_vregSet_le (fn : MirFunction) : fn.vregSet.card ≤ fn.vregCount :=
  Finset.card_image_le.trans (Finset.card_range _).le

theorem mem_vregSet {v : ℤ} (h : fn.valid v = true) : v ∈ fn.vregSet := by
  simp only [MirFunction.valid, decide_eq_true_eq] at h
  exact Finset.mem_image.mpr ⟨v.toNat, Finset.mem_range.mpr (by omega), Int.toNat_of_nonneg h.1⟩

/-- Only valid registers are noted. -/
theorem liveNoteUses_subset {acc : Finset ℤ × Finset ℤ} (hacc : acc.1 ⊆ fn.vregSet) (skip : Bool) (o : Operand) :
    (fn.liveNoteUses skip acc o).1 ⊆ fn.vregSet := by
  unfold liveNoteUses
  split
  · exact hacc
  · apply Finset.union_subset hacc
    intro v hv
    exact mem_vregSet (mem_filter.mp (List.mem_toFinset.mp (Finset.mem_sdiff.mp hv).1)).2

theorem liveLocalSets_subset (st : Intervals) (s : ℕ) : (fn.liveLocalSets st s).1 ⊆ fn.vregSet := by
  have hstep (acc : Finset ℤ × Finset ℤ) (hacc : acc.1 ⊆ fn.vregSet) (i : ℕ) :
      (fn.liveLocalStep st acc i).1 ⊆ fn.vregSet := by
    have huses := liveNoteUses_subset (liveNoteUses_subset (liveNoteUses_subset hacc true (fn.insn i).dst) false
      (fn.insn i).a) false (fn.insn i).b
    unfold liveLocalStep
    simp only
    split
    · rename_i hdst
      split
      · exact huses
      · split
        · exact huses
        · exact Finset.insert_subset (mem_vregSet hdst.2) huses
    · exact huses
  have hfold (is : List ℕ) (acc : Finset ℤ × Finset ℤ) (hacc : acc.1 ⊆ fn.vregSet) :
      (is.foldl (fn.liveLocalStep st) acc).1 ⊆ fn.vregSet := by
    induction is generalizing acc with
    | nil => exact hacc
    | cons i is ih => exact ih _ (hstep acc hacc i)
  exact hfold _ _ (Finset.empty_subset _)

/-! ## The solution -/

/-- The equations of the loop of `mir_live_cfg_build`. -/
def liveFlow (fn : MirFunction) (st : Intervals) : Gather ℕ ℤ where
  seed _ := ∅
  own s := (fn.liveLocalSets st s).1
  edges s := ((fn.liveLink s).getD []).map fun e => (e, (fn.liveLocalSets st s).2)

/-- A round of the block analysis visits a data-flow problem. -/
theorem liveVisit_eq (fn : MirFunction) (st : Intervals) : fn.liveVisit st = (fn.liveFlow st).visit := by
  funext live s
  have hnext : ((fn.liveLink s).getD []).foldl (fun set e => set ∪ (live e \ (fn.liveLocalSets st s).2)) (live s) ∪
      (fn.liveLocalSets st s).1 = live s ∪ (fn.liveFlow st).inflow live s := by
    ext v
    rw [Finset.mem_union, Finset.mem_union, mem_foldl_union, Gather.mem_inflow]
    simp only [liveFlow, List.mem_map, exists_exists_and_eq_and, Finset.mem_sdiff]
    exact or_right_comm.trans or_assoc
  simp only [liveVisit, Gather.visit, hnext]
  congr 1
  simp [Finset.union_eq_left]

/-- Every block was linked. -/
def Linked (fn : MirFunction) : Prop := ∀ s ∈ fn.liveLeaders, ∃ succs, fn.liveLink s = some succs

/-- Its edges go where control can go from the end of a block, and drop what the block defines. -/
theorem mem_liveFlow_edges (hlinked : fn.Linked) (hs : s ∈ fn.liveLeaders) {e : ℕ × Finset ℤ} :
    e ∈ (fn.liveFlow st).edges s ↔
      e.1 ∈ fn.liveNext (fn.liveBlockEnd s - 1) ∧ e.2 = (fn.liveLocalSets st s).2 := by
  obtain ⟨succs, hsuccs⟩ := hlinked s hs
  obtain ⟨e₁, e₂⟩ := e
  rw [← (mem_liveLink (mem_liveLeaders.mp hs).1 hsuccs).1]
  simp only [liveFlow, hsuccs, Option.getD_some, List.mem_map, Prod.mk.injEq]
  constructor
  · rintro ⟨e, he, rfl, rfl⟩
    exact ⟨he, rfl⟩
  · rintro ⟨he, rfl⟩
    exact ⟨e₁, he, rfl, rfl⟩

/-- Control goes to leaders. -/
theorem mem_liveLeaders_of_liveNext (hlinked : fn.Linked) (hs : s ∈ fn.liveLeaders)
    (hj : j ∈ fn.liveNext (fn.liveBlockEnd s - 1)) : j ∈ fn.liveLeaders := by
  obtain ⟨succs, hsuccs⟩ := hlinked s hs
  obtain ⟨hmem, hleader⟩ := mem_liveLink (j := j) (mem_liveLeaders.mp hs).1 hsuccs
  exact hleader (hmem.mpr hj)

/-- A register that the rest of a block awaits, or lets through to where it is awaited, is awaited. -/
theorem awaited_of_awaitedIn (hvalid : fn.valid v = true) (hs : s ∈ fn.liveLeaders) (hle : s ≤ i)
    (hlt : i < fn.liveBlockEnd s)
    (h : fn.AwaitedIn v (∃ j ∈ fn.liveNext (fn.liveBlockEnd s - 1), fn.Awaited j v)
      (range' i (fn.liveBlockEnd s - i))) : fn.Awaited i v := by
  obtain ⟨k, hk⟩ : ∃ k, fn.liveBlockEnd s - i = k + 1 := ⟨fn.liveBlockEnd s - i - 1, by omega⟩
  induction k generalizing i with
  | zero =>
    rw [hk] at h
    rcases h with h | ⟨hnot, j, hj, hawaited⟩
    · exact .named hvalid h
    · rw [show fn.liveBlockEnd s - 1 = i by omega] at hj
      exact .pass hj hnot hawaited
  | succ k ih =>
    rw [hk, range'_succ] at h
    rcases h with h | ⟨hnot, h⟩
    · exact .named hvalid h
    · refine .pass (j := i + 1) ?_ hnot (ih (by omega) (by omega) ?_ (by omega))
      · rw [liveNext_of_lt (mem_liveLeaders.mp hs).1 hle (by omega)]
        exact mem_singleton_self _
      · rwa [show fn.liveBlockEnd s - (i + 1) = k + 1 by omega]

/-- What the equations carry to the start of a block is awaited there. -/
theorem awaited_of_carries (hentry : fn.KnowsEntry st v) (hvalid : fn.valid v = true) (hlinked : fn.Linked)
    (h : (fn.liveFlow st).Carries s v) (hs : s ∈ fn.liveLeaders) : fn.Awaited s v := by
  have hstart : ∀ s ∈ fn.liveLeaders, (v ∈ (fn.liveLocalSets st s).1 ∨ v ∉ (fn.liveLocalSets st s).2 ∧
      ∃ j ∈ fn.liveNext (fn.liveBlockEnd s - 1), fn.Awaited j v) → fn.Awaited s v := fun s hs h =>
    awaited_of_awaitedIn hvalid hs le_rfl (liveBlockEnd_spec (mem_liveLeaders.mp hs).1).1
      ((mem_liveLocalSets hentry hvalid _ s).mp h)
  induction h with
  | seed h => cases h
  | own h => exact hstart _ hs (.inl h)
  | @edge s v e he hkill _ ih =>
    obtain ⟨hnext, heq⟩ := (mem_liveFlow_edges hlinked hs).mp he
    rw [heq] at hkill
    have hleader := mem_liveLeaders_of_liveNext hlinked hs hnext
    exact hstart s hs (.inr ⟨hkill, e.1, hnext, ih hentry hvalid hleader hstart⟩)

/-- Along an awaiting path the equations carry the register back to the start of the block. -/
theorem awaitedIn_of_awaited (hentry : fn.KnowsEntry st v) (hlinked : fn.Linked) (h : fn.Awaited i v)
    (hs : s ∈ fn.liveLeaders) (hle : s ≤ i) (hlt : i < fn.liveBlockEnd s) :
    fn.AwaitedIn v (∃ j ∈ fn.liveNext (fn.liveBlockEnd s - 1), (fn.liveFlow st).Carries j v)
      (range' i (fn.liveBlockEnd s - i)) := by
  obtain ⟨k, hk⟩ : ∃ k, fn.liveBlockEnd s - i = k + 1 := ⟨fn.liveBlockEnd s - i - 1, by omega⟩
  induction h generalizing s k with
  | named _ h =>
    rw [hk, range'_succ]
    exact .inl h
  | @pass i j v hj hnot h ih =>
    rw [hk, range'_succ]
    refine .inr ⟨hnot, ?_⟩
    by_cases hlast : k = 0
    · -- control goes on to a block that awaits the register
      subst hlast
      rw [show i = fn.liveBlockEnd s - 1 by omega] at hj
      have hleader := mem_liveLeaders_of_liveNext hlinked hs hj
      have hend := (liveBlockEnd_spec (mem_liveLeaders.mp hleader).1).1
      have hin := ih hentry hleader le_rfl hend (fn.liveBlockEnd j - j - 1) (by omega)
      refine ⟨j, hj, ?_⟩
      rcases (mem_liveLocalSets hentry h.valid _ j).mpr hin with huse | ⟨hkill, j', hj', hcarries⟩
      · exact .own huse
      · exact .edge (e := (j', _)) ((mem_liveFlow_edges hlinked hleader).mpr ⟨hj', rfl⟩) hkill hcarries
    · rw [liveNext_of_lt (mem_liveLeaders.mp hs).1 hle (by omega), mem_singleton] at hj
      subst hj
      have hin := ih hentry hs (by omega) (by omega) (k - 1) (by omega)
      rwa [show fn.liveBlockEnd s - (i + 1) = k by omega] at hin

/-- The last instruction of a block decides whether it is linked. -/
theorem liveLink_eq_none : fn.liveLink s = none ↔ fn.Unlinked (fn.liveBlockEnd s - 1) := by
  simp only [liveLink, Unlinked, map_eq_none_iff]

/-- An instruction without its target in the graph ends a block. -/
theorem Unlinked.endsBlock (h : fn.Unlinked i) : (fn.insn i).endsBlock = true := by
  by_contra hends
  simp only [Inst.endsBlock, decide_eq_true_eq, not_or] at hends
  simp [Unlinked, linkLabels, Inst.isCondBranch, hends] at h

/-- The graph is built exactly when every target is found. -/
theorem linked_iff : fn.Linked ↔ ∀ i < fn.insnCount, ¬ fn.Unlinked i := by
  constructor
  · intro hlinked i hi h
    obtain ⟨s, hs, hend⟩ := exists_liveBlockEnd_eq hi h.endsBlock
    obtain ⟨succs, hsuccs⟩ := hlinked s hs
    rw [liveLink_eq_none.mpr (by rwa [hend])] at hsuccs
    cases hsuccs
  · intro h s hs
    obtain ⟨hlt, hend, -⟩ := liveBlockEnd_spec (mem_liveLeaders.mp hs).1
    cases hlink : fn.liveLink s with
    | some succs => exact ⟨succs, rfl⟩
    | none => exact absurd (liveLink_eq_none.mp hlink) (h _ (by omega))

/-- The loop of the analysis stops with what is awaited at the start of each block. -/
theorem liveFlow_solve (hlinked : fn.Linked) (st : Intervals) :
    ∃ live, (fn.liveFlow st).solve fn.liveLeaders.reverse (fn.liveLeaders.length * fn.vregCount + 1) = some live ∧
      ∀ s ∈ fn.liveLeaders, ∀ v, fn.valid v = true → fn.KnowsEntry st v → (v ∈ live s ↔ fn.Awaited s v) := by
  have hrounds : fn.liveLeaders.reverse.toFinset.card * fn.vregSet.card <
      fn.liveLeaders.length * fn.vregCount + 1 := by
    rw [toFinset_reverse]
    exact Nat.lt_succ_of_le (Nat.mul_le_mul (toFinset_card_le _) (card_vregSet_le fn))
  obtain ⟨live, hlive⟩ := Gather.solve_stops (G := fn.liveFlow st) (U := fn.vregSet)
    (fun _ => Finset.empty_subset _) (liveLocalSets_subset st) hrounds
  refine ⟨live, hlive, fun s hs v hvalid hentry => ?_⟩
  have hclosed : ∀ s ∈ fn.liveLeaders.reverse, ∀ e ∈ (fn.liveFlow st).edges s, e.1 ∈ fn.liveLeaders.reverse := by
    intro s hs e he
    have hs := mem_reverse.mp hs
    exact mem_reverse.mpr (mem_liveLeaders_of_liveNext hlinked hs ((mem_liveFlow_edges hlinked hs).mp he).1)
  rw [Gather.solve_spec hclosed hlive (mem_reverse.mpr hs)]
  refine ⟨fun h => awaited_of_carries hentry hvalid hlinked h hs, fun h => ?_⟩
  have hend := (liveBlockEnd_spec (mem_liveLeaders.mp hs).1).1
  have hin := awaitedIn_of_awaited hentry hlinked h hs le_rfl hend
  rcases (mem_liveLocalSets hentry hvalid _ s).mpr hin with huse | ⟨hkill, j, hj, hcarries⟩
  · exact .own huse
  · exact .edge (e := (j, _)) ((mem_liveFlow_edges hlinked hs).mpr ⟨hj, rfl⟩) hkill hcarries

/-- `mir_live_cfg_build` stops, without a graph or with what is awaited at the start of each block. -/
theorem liveCfgBuild_spec (fn : MirFunction) (st : Intervals) : ∃ cfg, fn.liveCfgBuild st = some cfg ∧
    ∀ s ∈ fn.liveLeaders, ∀ v, fn.valid v = true → fn.KnowsEntry st v →
      (fn.headerLive cfg s v = true ↔ fn.LooksLive s v) := by
  by_cases hempty : fn.insnCount = 0 ∨ fn.vregCount = 0
  · refine ⟨none, by rw [liveCfgBuild, if_pos (by tauto)], fun s hs v hvalid _ => ?_⟩
    -- there is no leader, or no register
    have hlt := (mem_liveLeaders.mp hs).1
    simp only [valid, decide_eq_true_eq] at hvalid
    omega
  by_cases hlarge : liveCfgMaxWork < fn.insnCount * ((fn.vregCount + 63) / 64)
  · exact ⟨none, by rw [liveCfgBuild, if_pos (by tauto)], fun s _ v _ _ => iff_of_true rfl (.inl (.inl hlarge))⟩
  by_cases hlinked : fn.Linked
  · obtain ⟨live, hsolve, hlive⟩ := liveFlow_solve hlinked st
    have hany : ¬ (fn.liveLeaders.any fun s => (fn.liveLink s).isNone) = true := by
      intro h
      obtain ⟨s, hs, hnone⟩ := any_eq_true.mp h
      obtain ⟨succs, hsuccs⟩ := hlinked s hs
      simp [hsuccs] at hnone
    refine ⟨some live, ?_, fun s hs v hvalid hentry => ?_⟩
    · rw [liveCfgBuild, if_neg (by tauto), if_neg hany, liveVisit_eq]
      change Option.map some ((fn.liveFlow st).solve _ _) = _
      rw [hsolve, Option.map_some]
    · have hself := liveBlockOf_of_liveLeader (mem_liveLeaders.mp hs).2
      rw [headerLive, decide_eq_true_eq, hself, hlive s hs v hvalid hentry]
      refine ⟨.inr, fun h => h.resolve_left ?_⟩
      rintro (h | ⟨i, hi, h⟩)
      · exact hlarge h
      · exact linked_iff.mp hlinked i hi h
  · obtain ⟨s, hs, hnone⟩ : ∃ s ∈ fn.liveLeaders, fn.liveLink s = none := by
      simpa [Linked, Option.eq_none_iff_forall_ne_some] using hlinked
    have hany : (fn.liveLeaders.any fun s => (fn.liveLink s).isNone) = true :=
      any_eq_true.mpr ⟨s, hs, by rw [hnone]; rfl⟩
    have hgraph : fn.NoGraph := .inr (by simpa [linked_iff] using hlinked)
    exact ⟨none, by rw [liveCfgBuild, if_neg (by tauto), if_pos hany], fun s _ v _ _ => iff_of_true rfl (.inl hgraph)⟩

end MirFunction

open MirFunction

variable {fn : MirFunction} {i : ℕ} {v : ℤ}

/-- A live register is awaited, unless the analysis overlooks it. -/
theorem LiveAt.awaited (h : LiveAt fn i v) (hseen : ¬ fn.Overlooks v) : fn.Awaited i v := by
  simp only [Overlooks, not_or, not_exists, not_and] at hseen
  obtain ⟨hbt, hintro⟩ := hseen
  induction h with
  | @read i v huse =>
    rw [MirFunction.uses, List.mem_toFinset, List.mem_filter] at huse
    obtain ⟨huse, hvalid⟩ := huse
    unfold Inst.uses at huse
    split at huse
    · cases huse
    simp only [mem_append] at huse
    refine .named hvalid ?_
    rcases huse with (huse | huse) | huse
    · split at huse
      · rename_i hreads
        refine .inr (.inr ⟨huse, fun h => ?_⟩)
        rcases hreads with hmem | hreads
        · rw [h.2.1.1] at hmem
          cases hmem
        · exact (hintro i h).2 hreads
      · cases huse
    · exact .inl huse
    · exact .inr (.inl huse)
  | @pass i j v hj hdef hlive ih =>
    refine .pass (by rwa [liveNext, if_neg (hbt i)]) (fun h => hdef ?_) (ih hintro)
    -- an introduction that is not dropped is a definition
    have hdefs : (fn.insn i).defs = v := by rw [Inst.defs, if_pos ⟨(hintro i h).1, h.2.1.1⟩, h.2.1.2]
    rw [MirFunction.defs, hdefs, if_pos (ih hintro).valid]
    exact Finset.mem_singleton_self v

end Mettle.Mir

import Mettle.Mir.CfgExact
import Mettle.Mir.Locations
import Mettle.Mir.Verify

/-!
# The verifier against the cursor

The verifier's per-instruction sets are the path sets too, so they agree with the cursor, and an
allocation it has checked keeps every live register whose location is a register.
-/

open Function
open List hiding next
open Option hiding or_assoc or_self

namespace Mettle.Mir

open Mettle.Lib MirFunction

variable {fn : MirFunction} {i j : ℕ} {v : ℤ}

/-! ## Successors -/

/-- The verifier's successors are the encoder's transfers, bit tests apart. -/
theorem mem_verifySuccs_iff (hbt : fn.NoBitTest) (h : (fn.verifySuccessors i).isSome) :
    j ∈ fn.verifySuccs i ↔ j ∈ fn.next i := by
  obtain ⟨l, hl⟩ := isSome_iff_exists.mp h
  have hbt := hbt i
  rw [verifySuccs, hl, getD_some]
  simp only [verifySuccessors] at hl
  split at hl
  · rename_i hop
    obtain ⟨t, ht, rfl⟩ := map_eq_some_iff.mp hl
    simp [next, targets, falls, hop, ht]
  split at hl
  · rename_i hjmp hop
    obtain ⟨t, ht, rfl⟩ := map_eq_some_iff.mp hl
    have hcond : (fn.insn i).isCondBranch = true := by simpa [Inst.isCondBranch] using hop
    have hfalls : fn.falls i = true := by
      rcases hop with hop | hop | hop <;> simp [falls, hop]
    simp [next, targets, hjmp, hcond, hfalls, ht]
  rename_i hcond
  have hcond' : (fn.insn i).isCondBranch = false := by simpa [Inst.isCondBranch] using hcond
  split at hl
  · rename_i hjmp htable
    split at hl
    · cases hl
    rename_i labels hlabels
    have hmap := Lib.map_of_mapM hl
    simp [next, targets, falls, htable, hcond', hlabels, hmap]
  split at hl
  · rename_i hjmp htable hop
    cases hl
    simp [next, targets, falls, hjmp, hcond', htable, hbt, hop]
  · rename_i hjmp htable hop
    cases hl
    have hfalls : fn.falls i = true := by simpa [falls, hjmp, htable] using hop
    simp [next, targets, hjmp, hcond', htable, hbt, hfalls]

/-! ## Liveness -/

/-- Every member of the sets is live. -/
def LiveSound (fn : MirFunction) (s : ℕ → Finset ℤ) : Prop := ∀ i, ∀ v ∈ s i, LiveAt fn i v

/-- The equation of instruction `i` holds. -/
def LiveSolved (fn : MirFunction) (i : ℕ) (s : ℕ → Finset ℤ) : Prop :=
  s i = (fn.verifyLiveOut s i \ fn.defs i) ∪ fn.uses i

variable {s : ℕ → Finset ℤ}

/-- What the verifier takes for live behind an instruction is live at one of the next. -/
theorem mem_verifyLiveOut (hbt : fn.NoBitTest) (h : (fn.verifySuccessors i).isSome) :
    v ∈ fn.verifyLiveOut s i ↔ ∃ j ∈ fn.next i, v ∈ s j := by
  rw [verifyLiveOut, mem_foldl_union]
  simp only [Finset.notMem_empty, false_or, mem_verifySuccs_iff hbt h]

/-- A round of the liveness keeps it sound. -/
theorem LiveSound.step (hbt : fn.NoBitTest) (h : (fn.verifySuccessors i).isSome) (hs : LiveSound fn s) :
    LiveSound fn (fn.verifyLiveStep s i).1 := by
  intro k v hk
  by_cases hki : k = i
  · subst hki
    simp only [verifyLiveStep, update_self, Finset.mem_union, Finset.mem_sdiff] at hk
    rcases hk with ⟨hk, hdef⟩ | hk
    · obtain ⟨j, hj, hv⟩ := (mem_verifyLiveOut hbt h).mp hk
      exact .pass hj hdef (hs j v hv)
    · exact .read hk
  · simp only [verifyLiveStep, update_of_ne hki] at hk
    exact hs k v hk

/-- A step without a change found its equation true and left the sets alone. -/
theorem verifyLiveStep_stable (h : (fn.verifyLiveStep s i).2 = false) :
    LiveSolved fn i s ∧ (fn.verifyLiveStep s i).1 = s := by
  have hsame : LiveSolved fn i s := by simpa [verifyLiveStep, LiveSolved] using h
  refine ⟨hsame, ?_⟩
  rw [LiveSolved] at hsame
  simp only [verifyLiveStep, ← hsame, update_eq_self]

/-- The verifier's live sets are exact once its loop stops. -/
theorem mem_verifyComputeLiveness (hbt : fn.NoBitTest)
    (hsucc : ∀ i < fn.insnCount, (fn.verifySuccessors i).isSome) {liveIn : ℕ → Finset ℤ}
    (h : fn.verifyComputeLiveness = some liveIn) (hi : i < fn.insnCount) :
    v ∈ liveIn i ↔ LiveAt fn i v := by
  have hnodes : ∀ i, i ∈ (range fn.insnCount).reverse ↔ i < fn.insnCount := by simp
  have hinv : ∀ s, ∀ i ∈ (range fn.insnCount).reverse, LiveSound fn s → LiveSound fn (fn.verifyLiveStep s i).1 :=
    fun s i hi hs => hs.step hbt (hsucc i ((hnodes i).mp hi))
  have hest : ∀ s, ∀ i ∈ (range fn.insnCount).reverse, LiveSound fn s →
      (fn.verifyLiveStep s i).2 = false → LiveSolved fn i (fn.verifyLiveStep s i).1 := by
    intro s i _ _ hstable
    obtain ⟨hsolved, hsame⟩ := verifyLiveStep_stable hstable
    rwa [hsame]
  have hkeep : ∀ s, ∀ i ∈ (range fn.insnCount).reverse,
      ∀ j ∈ (range fn.insnCount).reverse, LiveSound fn s → LiveSolved fn i s →
      (fn.verifyLiveStep s j).2 = false → LiveSolved fn i (fn.verifyLiveStep s j).1 := by
    intro s i _ j _ _ hsolved hstable
    rwa [(verifyLiveStep_stable hstable).2]
  obtain ⟨hsound, hsolved⟩ := untilStable_post hinv hest hkeep (fun _ v hv => absurd hv (Finset.notMem_empty v)) h
  refine ⟨hsound i v, fun hlive => ?_⟩
  induction hlive with
  | @read i v huse =>
    rw [hsolved i ((hnodes i).mpr hi)]
    exact Finset.mem_union_right _ huse
  | @pass i j v hj hdef hlive ih =>
    have hjlt : j < fn.insnCount := lt_of_mem_next_right hj
    rw [hsolved i ((hnodes i).mpr hi)]
    refine Finset.mem_union_left _ (Finset.mem_sdiff.mpr ⟨?_, hdef⟩)
    exact (mem_verifyLiveOut hbt (hsucc i hi)).mpr ⟨j, hj, ih hjlt⟩

/-! ## Definedness -/

/-- Every member of the sets was written, and the entry set is the parameters. -/
def DefdSound (fn : MirFunction) (s : ℕ → Finset ℤ) : Prop :=
  (∀ i, ∀ v ∈ s i, WrittenAt fn i v) ∧ s 0 = fn.entryDefs

/-- Instruction `i` has what its predecessors hand over. -/
def DefdSolved (fn : MirFunction) (i : ℕ) (s : ℕ → Finset ℤ) : Prop :=
  ∀ p, i ∈ fn.next p → s p ∪ fn.defs p ⊆ s i

section

variable (hbt : fn.NoBitTest) (hsucc : ∀ i < fn.insnCount, (fn.verifySuccessors i).isSome)
include hbt hsucc

/-- The predecessors are where control can come from. -/
theorem mem_verifyPreds {p : ℕ} : p ∈ fn.verifyPreds i ↔ i ∈ fn.next p := by
  simp only [verifyPreds, mem_filter, mem_range, decide_eq_true_eq]
  constructor
  · rintro ⟨hp, hmem⟩
    exact (mem_verifySuccs_iff hbt (hsucc p hp)).mp hmem
  · intro hmem
    have hp := lt_of_mem_next hmem
    exact ⟨hp, (mem_verifySuccs_iff hbt (hsucc p hp)).mpr hmem⟩

/-- A round of the definedness keeps it sound. -/
theorem DefdSound.step (hi : i ≠ 0) {s : ℕ → Finset ℤ} (hs : DefdSound fn s) : DefdSound fn (fn.verifyDefdStep s i).1 := by
  refine ⟨fun k v hk => ?_, ?_⟩
  · by_cases hki : k = i
    · subst hki
      simp only [verifyDefdStep, update_self, mem_foldl_union, verifyDefdOut, Finset.mem_union] at hk
      rcases hk with hk | ⟨p, hp, hk⟩
      · exact hs.1 k v hk
      · rw [mem_verifyPreds hbt hsucc] at hp
        rcases hk with hk | hk
        · exact .pass hp (hs.1 p v hk)
        · exact .write hp hk
    · simp only [verifyDefdStep, update_of_ne hki] at hk
      exact hs.1 k v hk
  · simp only [verifyDefdStep, update_of_ne (Ne.symm hi)]
    exact hs.2

/-- A round that changes nothing has solved its equation. -/
theorem verifyDefdStep_stable {s : ℕ → Finset ℤ} (h : (fn.verifyDefdStep s i).2 = false) :
    DefdSolved fn i s ∧ (fn.verifyDefdStep s i).1 = s := by
  have hsame : (fn.verifyPreds i).foldl (fun s' p => s' ∪ fn.verifyDefdOut s p) (s i) = s i := by
    simpa [verifyDefdStep] using h
  refine ⟨fun p hp v hv => ?_, ?_⟩
  · rw [← hsame, mem_foldl_union]
    exact .inr ⟨p, (mem_verifyPreds hbt hsucc).mpr hp, hv⟩
  · simp only [verifyDefdStep, hsame, update_eq_self]

/-- The verifier's defined sets are exact once its loop stops, when nothing jumps to the entry. -/
theorem mem_verifyComputeDefined (hentry : ∀ i, 0 ∉ fn.next i) {defdIn : ℕ → Finset ℤ}
    (h : fn.verifyComputeDefined = some defdIn) : v ∈ defdIn i ↔ WrittenAt fn i v := by
  have hnodes : ∀ i, i ∈ range' 1 (fn.insnCount - 1) ↔ i ≠ 0 ∧ i < fn.insnCount := by
    intro i
    rw [mem_range'_1]
    omega
  have hinv : ∀ s, ∀ i ∈ range' 1 (fn.insnCount - 1), DefdSound fn s → DefdSound fn (fn.verifyDefdStep s i).1 :=
    fun s i hi hs => hs.step hbt hsucc ((hnodes i).mp hi).1
  have hest : ∀ s, ∀ i ∈ range' 1 (fn.insnCount - 1), DefdSound fn s →
      (fn.verifyDefdStep s i).2 = false → DefdSolved fn i (fn.verifyDefdStep s i).1 := by
    intro s i _ _ hstable
    obtain ⟨hsolved, hsame⟩ := verifyDefdStep_stable hbt hsucc hstable
    rwa [hsame]
  have hkeep : ∀ s, ∀ i ∈ range' 1 (fn.insnCount - 1),
      ∀ j ∈ range' 1 (fn.insnCount - 1), DefdSound fn s → DefdSolved fn i s →
      (fn.verifyDefdStep s j).2 = false → DefdSolved fn i (fn.verifyDefdStep s j).1 := by
    intro s i _ j _ _ hsolved hstable
    rwa [(verifyDefdStep_stable hbt hsucc hstable).2]
  have hstart : DefdSound fn fun i => if i = 0 then fn.entryDefs else ∅ := by
    refine ⟨fun i v hv => ?_, rfl⟩
    by_cases hi : i = 0
    · subst hi
      exact .entry (by simpa using hv)
    · simp [hi] at hv
  obtain ⟨hsound, hsolved⟩ := untilStable_post hinv hest hkeep hstart h
  have hflow : ∀ p j, j ∈ fn.next p → defdIn p ∪ fn.defs p ⊆ defdIn j := by
    intro p j hj
    have hj0 : j ≠ 0 := by rintro rfl; exact hentry p hj
    exact hsolved j ((hnodes j).mpr ⟨hj0, lt_of_mem_next_right hj⟩) p hj
  refine ⟨hsound.1 i v, fun hwritten => ?_⟩
  induction hwritten with
  | entry hv => rwa [hsound.2]
  | write hj hv => exact hflow _ _ hj (Finset.mem_union_right _ hv)
  | pass hj _ ih => exact hflow _ _ hj (Finset.mem_union_left _ ih)

end

/-! ## What a checked allocation keeps -/

/-- Every used register is read by some instruction of the function. -/
theorem LiveAt.exists_use (h : LiveAt fn i v) : ∃ k < fn.insnCount, v ∈ fn.uses k := by
  induction h with
  | @read i v huse =>
    refine ⟨i, ?_, huse⟩
    by_contra hi
    rw [MirFunction.uses, insn_of_le (Nat.le_of_not_lt hi)] at huse
    simp [Inst.uses] at huse
  | pass _ _ _ ih => exact ih

/-- What is written on every way has a definition. -/
theorem WrittenAt.hasDef (h : WrittenAt fn i v) : fn.hasDef v = true := by
  induction h with
  | entry hv => simp [MirFunction.hasDef, hv]
  | @write i j v hj hv =>
    simp only [MirFunction.hasDef, decide_eq_true_eq, List.any_eq_true, mem_range]
    exact .inr ⟨i, lt_of_mem_next hj, hv⟩
  | pass _ _ ih => exact ih

theorem valid_of_mem_uses (h : v ∈ fn.uses i) : fn.valid v = true := by
  simp only [MirFunction.uses, List.mem_toFinset, mem_filter] at h
  exact h.2

theorem mem_allVregs (h : fn.valid v = true) : v ∈ fn.allVregs := by
  simp only [valid, decide_eq_true_eq] at h
  exact List.mem_map.mpr ⟨v.toNat, mem_range.mpr (by omega), by omega⟩

/-- Different spilled registers are in different frame slots. -/
def SlotsApart (fn : MirFunction) : Prop :=
  ∀ v w, fn.valid v = true → fn.valid w = true → v ≠ w → (fn.vreg v).inRegister = false →
    (fn.vreg w).inRegister = false → (fn.vreg v).spillOffset ≠ (fn.vreg w).spillOffset

/-- What the loop body of the check rules out. -/
theorem verifyLiveVreg_spec {sysv : Bool} (h : fn.verifyLiveVreg sysv i v = true) (hdef : fn.hasDef v = true)
    (hreg : (fn.vreg v).inRegister = true) (hne : v ∉ fn.defs i) (hvalid : fn.valid v = true)
    (hdefs : ∀ d ∈ fn.defs i, fn.hasDef d = true) :
    (∀ d ∈ fn.defs i, fn.locOf d ≠ fn.locOf v) ∧ (fn.insn i).overwrites sysv (fn.locOf v) = false := by
  have hne' : v ≠ (fn.insn i).defs := by
    rintro rfl
    exact hne (by rw [MirFunction.defs, if_pos hvalid]; exact Finset.mem_singleton_self _)
  simp only [verifyLiveVreg, hdef, hreg, beq_eq_false_iff_ne.mpr hne', Bool.not_true,
    Bool.false_or, Bool.not_eq_true', Bool.or_eq_false_iff] at h
  -- the verifier's three checks: no shared location, no clobber of either class, nothing lost at a barrier
  obtain ⟨⟨⟨hshare, hgp⟩, hxmm⟩, hbarrier⟩ := h
  have hloc : fn.locOf v = .reg (fn.vreg v).rclass (fn.vreg v).phys := by
    rw [locOf, if_pos hreg]
  refine ⟨fun d hd heq => ?_, ?_⟩
  · have hd' : d = (fn.insn i).defs ∧ fn.valid d = true := by
      rw [MirFunction.defs] at hd
      split at hd
      · rename_i hvd
        rw [Finset.mem_singleton.mp hd]
        exact ⟨rfl, hvd⟩
      · exact absurd hd (Finset.notMem_empty d)
    obtain ⟨rfl, hdvalid⟩ := hd'
    rw [hloc, locOf] at heq
    split at heq
    · rename_i hdreg
      simp only [Loc.reg.injEq] at heq
      simp [hdvalid, hdreg, hdefs _ hd, heq.1, heq.2] at hshare
    · cases heq
  · rw [hloc]
    cases hclass : (fn.vreg v).rclass with
    | gp =>
      simp only [hclass] at hgp hbarrier
      simp only [Inst.overwrites, decide_eq_false_iff_not]
      rintro ⟨-, ⟨h₁, h₂, h₃⟩ | ⟨h₁, h₂⟩⟩
      · simp [h₁, h₂, h₃] at hgp
      · simp [h₁, h₂] at hbarrier
    | xmm =>
      simp only [hclass] at hxmm hbarrier
      simp only [Inst.overwrites, decide_eq_false_iff_not]
      rintro ⟨-, ⟨h₁, h₂, h₃⟩ | ⟨h₁, h₂⟩⟩
      · simp [h₁, h₂, h₃] at hxmm
      · simp [h₁, h₂] at hbarrier
    | vec =>
      simp only [hclass] at hbarrier
      simp only [Inst.overwrites, decide_eq_false_iff_not]
      rintro ⟨-, h₁, h₂⟩
      simp [h₁, h₂] at hbarrier

/-- What a verdict of `checked` rests on. -/
theorem mirRegallocVerify_checked {sysv : Bool} (h : mirRegallocVerify sysv fn = .checked) :
    (∀ i < fn.insnCount, (fn.verifySuccessors i).isSome) ∧ ∃ liveIn defdIn, fn.verifyComputeLiveness = some liveIn ∧
        fn.verifyComputeDefined = some defdIn ∧
        ∀ i < fn.insnCount, fn.verifyCheckInsn sysv liveIn defdIn i = true := by
  rw [mirRegallocVerify] at h
  split at h
  · cases h
  split at h
  · cases h
  split at h
  · cases h
  rename_i hsucc
  split at h
  · rename_i liveIn defdIn hlive hdefd
    split at h
    · rename_i hchecks
      refine ⟨fun i hi => ?_, liveIn, defdIn, hlive, hdefd, fun i hi => ?_⟩
      · by_contra hnone
        exact hsucc (List.any_eq_true.mpr ⟨i, mem_range.mpr hi, by simpa using hnone⟩)
      · exact List.all_eq_true.mp hchecks.2.2 i (mem_range.mpr hi)
    · cases h
  · cases h

/-- A checked allocation whose spill slots are apart keeps every live register. -/
theorem checked_keepsLive {sysv : Bool} (hbt : fn.NoBitTest) (hentry : ∀ i, 0 ∉ fn.next i)
    (hslots : SlotsApart fn) (h : mirRegallocVerify sysv fn = .checked) :
    KeepsLive fn sysv fn.locOf := by
  obtain ⟨hsucc, liveIn, defdIn, hlive, hdefd, hchecks⟩ := mirRegallocVerify_checked h
  intro i hi v hafter hwritten hdef
  obtain ⟨j, hj, hlivej⟩ := hafter
  -- live after `i`, so some later instruction uses the register, which is therefore a valid one
  obtain ⟨k, hk, huse⟩ := hlivej.exists_use
  have hvalid := valid_of_mem_uses huse
  by_cases hreg : (fn.vreg v).inRegister = true
  · by_cases hnop : (fn.insn i).op = .nop
    · have hdefs : fn.defs i = ∅ := by
        have hnone : (fn.insn i).defs = -1 := by simp [Inst.defs, hnop]
        rw [MirFunction.defs, hnone, if_neg (by simp [valid])]
      refine ⟨by simp [hdefs], ?_⟩
      rw [locOf, if_pos hreg]
      cases (fn.vreg v).rclass <;> simp [Inst.overwrites, hnop]
    · have hcheck := hchecks i hi
      simp only [verifyCheckInsn, hnop, false_or, decide_eq_true_eq, List.all_eq_true] at hcheck
      have hbody := hcheck v (mem_allVregs hvalid)
      have hout : v ∈ fn.verifyLiveOut liveIn i :=
        (mem_verifyLiveOut hbt (hsucc i hi)).mpr
          ⟨j, hj, (mem_verifyComputeLiveness hbt hsucc hlive (lt_of_mem_next_right hj)).mpr hlivej⟩
      have hin : v ∈ defdIn i := (mem_verifyComputeDefined hbt hsucc hentry hdefd).mpr hwritten
      simp only [hout, hin, not_true_eq_false, decide_false, Bool.false_or] at hbody
      refine verifyLiveVreg_spec hbody hwritten.hasDef hreg hdef hvalid fun d hd => ?_
      exact (WrittenAt.write hj hd).hasDef
  -- a spilled register: its slot is its own
  · have hspilled : (fn.vreg v).inRegister = false := by simpa using hreg
    have hloc : fn.locOf v = .slot (fn.vreg v).spillOffset := by
      rw [locOf, if_neg (by simp [hspilled])]
    rw [hloc]
    refine ⟨fun d hd heq => ?_, rfl⟩
    rw [locOf] at heq
    split at heq
    · cases heq
    · rename_i hdreg
      have hdvalid : fn.valid d = true := by
        rw [MirFunction.defs] at hd
        split at hd
        · rw [Finset.mem_singleton.mp hd]
          assumption
        · exact absurd hd (Finset.notMem_empty d)
      have hne : d ≠ v := by rintro rfl; exact hdef hd
      exact hslots d v hdvalid hvalid hne (by simpa using hdreg) hspilled (Loc.slot.inj heq)

/-! ## Agreement -/

/-- Every label an instruction names is in the function, and every jump table has its labels. -/
def LabelsResolve (fn : MirFunction) : Prop :=
  ∀ i, (∀ t ∈ fn.targets i, t.isSome) ∧ ((fn.insn i).op = .jmpTable → (fn.insn i).table.isSome)

/-- A loop whose rounds all succeed succeeds. -/
theorem mapM_isSome {α β : Type*} {f : α → Option β} {l : List α} (h : ∀ a ∈ l, (f a).isSome) :
    (l.mapM f).isSome := by
  induction l with
  | nil => simp
  | cons a rest ih =>
    obtain ⟨b, hb⟩ := isSome_iff_exists.mp (h a (mem_cons_self ..))
    obtain ⟨r, hr⟩ := isSome_iff_exists.mp (ih fun a' ha' => h a' (.tail _ ha'))
    simp [mapM_cons, hb, hr]

/-- When all labels are found, the verifier finds all successors. -/
theorem LabelsResolve.verifySuccessors (h : LabelsResolve fn) (i : ℕ) : (fn.verifySuccessors i).isSome := by
  obtain ⟨htargets, htable⟩ := h i
  simp only [MirFunction.verifySuccessors]
  split
  · rename_i hop
    have := htargets (fn.labelFind (fn.insn i).dst.sym) (by simp [targets, hop])
    simpa using this
  split
  · rename_i hjmp hop
    have hcond : (fn.insn i).isCondBranch = true := by simpa [Inst.isCondBranch] using hop
    have := htargets (fn.labelFind (fn.insn i).dst.sym) (by simp [targets, hcond])
    simpa using this
  split
  · rename_i hjmp hcond hop
    obtain ⟨labels, hlabels⟩ := isSome_iff_exists.mp (htable hop)
    rw [hlabels]
    refine mapM_isSome fun name hname => htargets _ ?_
    have hcond' : (fn.insn i).isCondBranch = false := by simpa [Inst.isCondBranch] using hcond
    simp only [targets, hop, hcond', hlabels, reduceCtorEq, Bool.false_eq_true, or_self, if_false, if_true, getD_some]
    exact List.mem_map_of_mem hname
  split <;> rfl

/-- The blocks can be linked then, if there is no `BT`. -/
theorem LabelsResolve.linkBlock (h : LabelsResolve fn) (hbt : fn.NoBitTest) (s : ℕ) : (fn.linkBlock s).isSome := by
  obtain ⟨htargets, htable⟩ := h (fn.blockEnd s - 1)
  have hlabels : (linkLabels (fn.insn (fn.blockEnd s - 1))).1.isSome := by
    simp only [linkLabels]
    split
    · rfl
    split
    · rfl
    split
    · rename_i hop
      exact htable hop
    split <;> rfl
  obtain ⟨labels, hlabels⟩ := isSome_iff_exists.mp hlabels
  obtain ⟨htarget, -⟩ := targets_eq_linkLabels (hbt _) hlabels
  obtain ⟨found, hfound⟩ := isSome_iff_exists.mp
    (mapM_isSome (f := fn.labelFind) (l := labels) fun name hname => htargets _ (by
      rw [htarget]
      exact List.mem_map_of_mem hname))
  simp only [MirFunction.linkBlock, hlabels, hfound, isSome_some]

/-- Liveness is exact and the verifier agrees with it, bit-test branches left out: the graph is built
and the cursor's sets are the path sets; the verifier's sets are the same ones, its defined sets when
nothing jumps to the entry; and an allocation it has checked preserves every execution if its spilled
registers are in slots of their own. -/
theorem cursor_exact_and_verified (hbt : fn.NoBitTest) (hlabels : LabelsResolve fn)
    (hinsns : 0 < fn.insnCount) (hvregs : 0 < fn.vregCount) :
    ∃ cfg, mirCfgBuild fn = some cfg ∧
      (∀ i < fn.insnCount, ∀ v, v ∈ (cursorBefore fn cfg i).live ↔ LiveAt fn i v) ∧
      (∀ i < fn.insnCount, ∀ v, v ∈ (cursorBefore fn cfg i).defd ↔ WrittenAt fn i v) ∧
      ((∀ i < fn.insnCount, Reached fn i) → ∀ i v, WrittenAt fn i v ↔ WrittenFromEntry fn i v) ∧
      (∀ liveIn, fn.verifyComputeLiveness = some liveIn →
        ∀ i < fn.insnCount, liveIn i = (cursorBefore fn cfg i).live) ∧
      ((∀ i, 0 ∉ fn.next i) →
        (∀ defdIn, fn.verifyComputeDefined = some defdIn →
          ∀ i < fn.insnCount, defdIn i = (cursorBefore fn cfg i).defd) ∧
        (∀ sysv, SlotsApart fn → mirRegallocVerify sysv fn = .checked →
          Preserves fn sysv fn.locOf)) := by
  have hlink : ∀ s ∈ fn.leaders, (fn.linkBlock s).isSome := fun s _ => hlabels.linkBlock hbt s
  have hsucc : ∀ i < fn.insnCount, (fn.verifySuccessors i).isSome :=
    fun i _ => hlabels.verifySuccessors i
  obtain ⟨cfg, hcfg⟩ := exists_mirCfgBuild hbt hinsns hvregs hlink
  refine ⟨cfg, hcfg, fun i hi v => mem_cursorBefore_live hbt hcfg hi,
    fun i hi v => mem_cursorBefore_defd hbt hcfg hi, fun hreach i v => writtenAt_iff_fromEntry hreach,
    fun liveIn hlive i hi => ?_, fun hentry => ⟨fun defdIn hdefd i hi => ?_,
      fun sysv hslots hchecked => (checked_keepsLive hbt hentry hslots hchecked).preserves⟩⟩
  · ext v
    rw [mem_verifyComputeLiveness hbt hsucc hlive hi, mem_cursorBefore_live hbt hcfg hi]
  · ext v
    rw [mem_verifyComputeDefined hbt hsucc hentry hdefd, mem_cursorBefore_defd hbt hcfg hi]

/-! ## Small functions -/

/-- A register operand. -/
def vregOp (v : ℤ) : Operand := { kind := .vreg, vreg := v }

/-- A label operand. -/
def labelOp (name : String) : Operand := { kind := .label, sym := some name }

/-- `v0 := 1; v1 := 2; v2 := v0 + v1; ret v2` over the given table of registers. -/
def sumFunction (vregs : List Vreg) : MirFunction where
  vregs := vregs
  insns := [{ op := .mov, dst := vregOp 0, a := { kind := .imm } },
    { op := .mov, dst := vregOp 1, a := { kind := .imm } },
    { op := .add, dst := vregOp 2, a := vregOp 0, b := vregOp 1 }, { op := .ret, a := vregOp 2 }]

/-- The sum with its registers in `rbx`, `r12` and `r13`. -/
def sumInRegisters : MirFunction :=
  sumFunction [{ assigned := true, inRegister := true, phys := 3 },
    { assigned := true, inRegister := true, phys := 12 },
    { assigned := true, inRegister := true, phys := 13 }]

/-- The sum with both operands spilled to one slot. -/
def sumInOneSlot : MirFunction :=
  sumFunction [{ assigned := true, spillOffset := 8 }, { assigned := true, spillOffset := 8 },
    { assigned := true, spillOffset := 16 }]

/-- `v0 := 1; v1 := 2; bt v1, v1 -> taken; ret; taken: v2 := v0; ret`. -/
def bitTestFunction : MirFunction where
  vregs := [{}, {}, {}]
  insns := [{ op := .mov, dst := vregOp 0, a := { kind := .imm } },
    { op := .mov, dst := vregOp 1, a := { kind := .imm } },
    { op := .bt, dst := labelOp "taken", a := vregOp 1, b := vregOp 1 }, { op := .ret },
    { op := .label, dst := labelOp "taken" }, { op := .mov, dst := vregOp 2, a := vregOp 0 },
    { op := .ret }]

/-- `jmp done; v0 := 1; done: ret`. -/
def unreachedFunction : MirFunction where
  vregs := [{}]
  insns := [{ op := .jmp, dst := labelOp "done" },
    { op := .mov, dst := vregOp 0, a := { kind := .imm } },
    { op := .label, dst := labelOp "done" }, { op := .ret }]

/-- A function without `BT`, as it is computed. -/
theorem noBitTest_of_all (h : fn.insns.all (fun i => i.op ≠ .bt) = true) : fn.NoBitTest := by
  intro i
  by_cases hi : i < fn.insnCount
  · have hmem : fn.insn i ∈ fn.insns := by
      rw [insn, getD_eq_getElem?_getD, List.getElem?_eq_getElem hi, getD_some]
      exact getElem_mem hi
    simpa using List.all_eq_true.mp h _ hmem
  · rw [insn_of_le (Nat.le_of_not_lt hi)]
    decide

/-- All labels are found when those of the instructions are. -/
theorem labelsResolve_of_lt (h : ∀ i < fn.insnCount, (∀ t ∈ fn.targets i, t.isSome) ∧
    ((fn.insn i).op = .jmpTable → (fn.insn i).table.isSome)) : LabelsResolve fn := by
  intro i
  by_cases hi : i < fn.insnCount
  · exact h i hi
  · have hnop := insn_of_le (Nat.le_of_not_lt hi)
    rw [targets, hnop]
    exact ⟨by simp [Inst.isCondBranch], fun h => by cases h⟩

/-- The sum: its operands are live before the addition, and the verifier has checked a sound
allocation of it. -/
theorem cursor_exact_and_verified_sum :
    (∃ cfg, mirCfgBuild sumInRegisters = some cfg ∧ LiveAt sumInRegisters 2 0 ∧
      0 ∈ (cursorBefore sumInRegisters cfg 2).live) ∧
      mirRegallocVerify false sumInRegisters = .checked ∧
      Preserves sumInRegisters false sumInRegisters.locOf := by
  have hlive : LiveAt sumInRegisters 2 0 := .read (by decide)
  have hlabels : LabelsResolve sumInRegisters := labelsResolve_of_lt (by decide)
  have hentry : ∀ i, 0 ∉ sumInRegisters.next i := by
    intro i h
    have hi : i < 4 := lt_of_mem_next h
    interval_cases i <;> revert h <;> decide
  have hslots : SlotsApart sumInRegisters := by
    intro v w hv _ _ hreg
    simp only [valid, decide_eq_true_eq] at hv
    obtain ⟨h₁, h₂⟩ := hv
    change v < 3 at h₂
    interval_cases v <;> exact absurd hreg (by decide)
  have hchecked : mirRegallocVerify false sumInRegisters = .checked := by decide
  obtain ⟨cfg, hcfg, hexact, -, -, -, hverified⟩ := cursor_exact_and_verified
    (noBitTest_of_all (by decide)) hlabels (by decide) (by decide)
  exact ⟨⟨cfg, hcfg, hlive, (hexact 2 (by decide) 0).mpr hlive⟩, hchecked,
    (hverified hentry).2 false hslots hchecked⟩

/-- A meaning of the sum in which the addition shows its first operand. -/
def sumSemantics : Semantics sumInOneSlot ℤ ℤ where
  exec i ρ e :=
    if i = 0 then (1, e, some 1) else if i = 1 then (2, e, some 2)
    else if i = 2 then (ρ 0, ρ 0, some 3) else (0, e, none)
  reads i ρ ρ' e hρ := by
    by_cases h2 : i = 2
    · subst h2
      simp [hρ 0 (by decide)]
    · simp [h2]
  goes i ρ e j hj := by
    split at hj
    · rename_i hi
      obtain rfl := Option.some.inj hj
      subst hi
      decide
    split at hj
    · rename_i hi
      obtain rfl := Option.some.inj hj
      subst hi
      decide
    split at hj
    · rename_i hi
      obtain rfl := Option.some.inj hj
      subst hi
      decide
    · cases hj

/-- With both operands in one slot the addition sees the second one twice. -/
theorem not_preserves_sumInOneSlot : ¬ Preserves sumInOneSlot false sumInOneSlot.locOf := by
  intro hpreserves
  have huses : ∀ i < 3, sumInOneSlot.uses i ⊆
      (if i = 0 then ∅ else if i = 1 then {0} else {0, 1} : Finset ℤ) := by decide
  have hdefs : ∀ i < 3, sumInOneSlot.defs i = {(i : ℤ)} := by decide
  have hentry : sumInOneSlot.entryDefs = ∅ := by decide
  let ρ : ℕ → ℤ → ℤ := fun n v => if v = 0 ∧ 0 < n then 1 else if v = 1 ∧ 1 < n then 2
    else if v = 2 ∧ 2 < n then 1 else 0
  let σ : ℕ → Loc → ℤ := fun n l => if l = .slot 8 then (if n = 0 then 0 else if n = 1 then 1 else 2)
    else if l = .slot 16 ∧ 2 < n then 2 else 0
  have hv : ∃ W, VregRun sumSemantics (ρ 0) 0 3 3 (ρ 3) 1 W := by
    have h0 : VregRun sumSemantics (ρ 0) 0 0 0 (ρ 0) 0 _ := .start
    have h1 : VregRun sumSemantics (ρ 0) 0 1 1 (ρ 1) 0 _ := h0.step (huses 0 (by omega)) rfl
      (by simp [hdefs 0, ρ, sumSemantics]) (by simp [hdefs 0, ρ])
    have h2 : VregRun sumSemantics (ρ 0) 0 2 2 (ρ 2) 0 _ :=
      h1.step ((huses 1 (by omega)).trans (by simp [hdefs 0])) rfl
        (by simp [hdefs 1, ρ, sumSemantics]) (by simp +contextual [hdefs 1, ρ])
    have h3 : VregRun sumSemantics (ρ 0) 0 3 3 (ρ 3) 1 _ :=
      h2.step ((huses 2 (by omega)).trans (by simp [hdefs 0, hdefs 1])) rfl
        (by simp [hdefs 2, ρ, sumSemantics]) (by simp +contextual [hdefs 2, ρ])
    exact ⟨_, h3⟩
  have hloc : sumInOneSlot.locOf 0 = .slot 8 ∧ sumInOneSlot.locOf 1 = .slot 8 ∧
      sumInOneSlot.locOf 2 = .slot 16 := by decide
  have hl : LocRun sumSemantics false sumInOneSlot.locOf (σ 0) 0 3 3 (σ 3) 2 := by
    have h0 : LocRun sumSemantics false sumInOneSlot.locOf (σ 0) 0 0 0 (σ 0) 0 := .start
    have h1 : LocRun sumSemantics false sumInOneSlot.locOf (σ 0) 0 1 1 (σ 1) 0 :=
      h0.step rfl (by simp [hdefs 0, hloc, σ, sumSemantics]) (fun l hl _ => by simp only [σ] at hl ⊢; grind)
    have h2 : LocRun sumSemantics false sumInOneSlot.locOf (σ 0) 0 2 2 (σ 2) 0 :=
      h1.step rfl (by simp [hdefs 1, hloc, σ, sumSemantics]) (fun l hl _ => by simp only [σ] at hl ⊢; grind)
    exact h2.step rfl (by simp [hdefs 2, hloc, σ, sumSemantics]) (fun l hl _ => by simp only [σ] at hl ⊢; grind)
  obtain ⟨W, hv⟩ := hv
  have h := hpreserves ℤ ℤ sumSemantics _ _ _ _ _ _ _ _ _ _ _ (by simp [hentry]) hv hl
  omega

/-- The taken target of a `MIR_BT` is no successor of its block, the written sets count code that
nothing reaches, and the verifier accepts two registers in one frame slot. -/
theorem cursor_misses_bit_test_and_verifier_slots :
    (∃ cfg, mirCfgBuild bitTestFunction = some cfg ∧
      LiveAt bitTestFunction 2 0 ∧ 0 ∉ (cursorBefore bitTestFunction cfg 2).live) ∧
    (∃ cfg, mirCfgBuild unreachedFunction = some cfg ∧
      0 ∈ (cursorBefore unreachedFunction cfg 2).defd ∧
      ¬ WrittenFromEntry unreachedFunction 2 0) ∧
    mirRegallocVerify false sumInOneSlot = .checked ∧
    ¬ Preserves sumInOneSlot false sumInOneSlot.locOf := by
  have hbt : ((mirCfgBuild bitTestFunction).map
      fun cfg => decide (0 ∈ (cursorBefore bitTestFunction cfg 2).live)) = some false := by
    decide
  have hun : ((mirCfgBuild unreachedFunction).map
      fun cfg => decide (0 ∈ (cursorBefore unreachedFunction cfg 2).defd)) = some true := by
    decide
  obtain ⟨cfg, hcfg, hlive⟩ := Option.map_eq_some_iff.mp hbt
  obtain ⟨cfg', hcfg', hdefd⟩ := Option.map_eq_some_iff.mp hun
  have hskips : ∀ i < 4, i ≠ 1 → 1 ∉ unreachedFunction.next i := by decide
  have hwrites : ∀ i < 4, i ≠ 1 → (0 : ℤ) ∉ unreachedFunction.defs i := by decide
  have hentry : (0 : ℤ) ∉ unreachedFunction.entryDefs := by decide
  have hreached : ∀ i, Reached unreachedFunction i → i ≠ 1 := by
    intro i hi
    induction hi with
    | entry => decide
    | step _ hj ih =>
      rintro rfl
      exact hskips _ (MirFunction.lt_of_mem_next hj) ih hj
  have hunwritten : ∀ i v, WrittenFromEntry unreachedFunction i v → v ≠ 0 := by
    intro i v hv
    induction hv with
    | entry hv =>
      rintro rfl
      exact hentry hv
    | write hi hj hv =>
      rintro rfl
      exact hwrites _ (MirFunction.lt_of_mem_next hj) (hreached _ hi) hv
    | pass _ _ ih => exact ih
  refine ⟨⟨cfg, hcfg, ?_, of_decide_eq_false hlive⟩, ⟨cfg', hcfg', of_decide_eq_true hdefd, ?_⟩,
    by decide, not_preserves_sumInOneSlot⟩
  · -- `2 → 4 → 5`, which reads `v0`
    exact .pass (j := 4) (by decide) (by decide)
      (.pass (j := 5) (by decide) (by decide) (.read (by decide)))
  · exact fun h => hunwritten 2 0 h rfl

end Mettle.Mir

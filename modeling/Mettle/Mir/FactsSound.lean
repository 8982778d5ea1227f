import Mettle.Mir.CfgExact
import Mettle.Mir.Locations
import Mettle.Mir.RaFacts

/-!
# The allocator's facts cover every path

The walk of the cursor visits every instruction with sets that hold all that is live after it and all
that some path has written by then. So a register that an instruction makes busy, or a barrier destroys,
is never in the mask of a virtual register that has to keep its value there.
-/

namespace Mettle.Mir

open Mettle.Lib MirFunction List

variable {fn : MirFunction} {cfg : Cfg} {i s : ℕ} {v : ℤ}

/-! ## The walk -/

/-- The live set of a cursor behind an instruction has everything live after it. -/
theorem CursorIn.mem_live (hbt : fn.NoBitTest) (h : mirCfgBuild fn = some cfg) {cur : Cursor}
    (hin : CursorIn fn cfg s cur) (hs : s ∈ fn.leaders) (hpos : cur.pos = i + 1) (hi : s ≤ i)
    (hv : LiveAfter fn i v) : v ∈ cur.live := by
  obtain ⟨hne, hlink, hlive, -⟩ := mirCfgBuild_eq_some h
  obtain ⟨-, hsolved⟩ := Dataflow.solve_spec (livenessFlow_above hbt hlink) hlive
  have hle := hin.le
  have hblock : fn.blockOf i = s := blockOf_of_lt_blockEnd hs hi (by omega)
  have hlt : i < fn.insnCount := by
    have := blockEnd_le (mem_leaders.mp hs).1
    omega
  obtain ⟨j, hj, hjlive⟩ := hv
  rw [hin.live, hpos]
  by_cases hlast : i + 1 < fn.blockEnd (fn.blockOf i)
  · rw [next_of_lt_blockEnd hbt hlt hlast] at hj
    obtain rfl := mem_singleton.mp hj
    have := mem_through_of_liveAt hbt hlink hsolved hjlive
      (hlast.trans_le (blockEnd_le ((blockOf_le i).trans_lt hlt)))
    rwa [rest, blockOf_succ hlast, hblock] at this
  · obtain ⟨hjlt, hjleader⟩ := leader_of_mem_next hlt hlast hj
    have hend : fn.blockEnd s - 1 = i := by
      rw [hblock] at hlast
      omega
    have hsucc : j ∈ fn.succs s := by
      rw [mem_succs_iff hbt (hlink _ hs), hend]
      exact hj
    have hmem := mem_through_of_liveAt hbt hlink hsolved hjlive hjlt
    rw [rest_leader hjleader, blockOf_of_leader hjleader, ← localSets_through] at hmem
    have hval : v ∈ cfg.live.val j := by
      rw [(hsolved j (mem_reverse.mpr (mem_leaders.mpr ⟨hjlt, hjleader⟩))).val]
      exact hmem
    have hjoin := (hsolved _ (mem_reverse.mpr hs)).join j hsucc hval
    rw [show fn.blockEnd s - (i + 1) = 0 by omega]
    exact hjoin

/-- The defined set of a cursor behind an instruction has everything some path wrote. -/
theorem CursorIn.mem_defd (hbt : fn.NoBitTest) (h : mirCfgBuild fn = some cfg) {cur : Cursor}
    (hin : CursorIn fn cfg s cur) (hs : s ∈ fn.leaders) (hpos : cur.pos = i + 1) (hi : s ≤ i)
    (hv : WrittenAfter fn i v) : v ∈ cur.defd := by
  obtain ⟨hne, hlink, -, hdefd⟩ := mirCfgBuild_eq_some h
  obtain ⟨hrunning, hsolved⟩ := Dataflow.solve_spec (definednessFlow_above hbt hne hlink) hdefd
  have hle := hin.le
  have hblock : fn.blockOf i = s := blockOf_of_lt_blockEnd hs hi (by omega)
  have hsplit : range' s (cur.pos - s) = range' s (i - s) ++ [i] := by
    rw [hpos, show i + 1 - s = i - s + 1 by omega, range'_1_concat, Nat.add_sub_of_le hi]
  rw [hin.defd, hsplit, written_concat, ← Finset.union_assoc, Finset.mem_union]
  rcases hv with hv | hv
  · exact .inr hv
  · have := mem_front_of_writtenAt hbt hne hlink hrunning.seed_le hsolved hv
    rw [front, hblock] at this
    exact .inl this

section Visit

variable {α : Type*} {visit : Finset ℤ → Finset ℤ → ℕ → α → α} {Inv : α → Prop}
  {Done : ℕ → α → Prop}

/-- What the visit of an instruction has to do: keep the invariant and what the visits before it
established, and establish its own, given sets that cover the paths. -/
def Visits (fn : MirFunction) (visit : Finset ℤ → Finset ℤ → ℕ → α → α) (Inv : α → Prop)
    (Done : ℕ → α → Prop) : Prop :=
  ∀ i < fn.insnCount, ∀ live defd : Finset ℤ, (∀ v, LiveAfter fn i v → v ∈ live) →
    (∀ v, WrittenAfter fn i v → v ∈ defd) → ∀ a, Inv a →
      Inv (visit live defd i a) ∧ Done i (visit live defd i a) ∧
        ∀ j, Done j a → Done j (visit live defd i a)

/-- The walk over one block. -/
theorem cursorVisitBlock_spec (hbt : fn.NoBitTest) (h : mirCfgBuild fn = some cfg)
    (hvisit : Visits fn visit Inv Done) (hs : s ∈ fn.leaders) (k : ℕ) (cur : Cursor) (a : α)
    (hin : CursorIn fn cfg s cur) (hpos : cur.pos = s + k) (ha : Inv a) :
    (∀ v, (cursorVisitBlock fn cfg visit k (cur, a)).1.count v = 0) ∧
      Inv (cursorVisitBlock fn cfg visit k (cur, a)).2 ∧
      (∀ i, s ≤ i → i < s + k → Done i (cursorVisitBlock fn cfg visit k (cur, a)).2) ∧
      ∀ j, Done j a → Done j (cursorVisitBlock fn cfg visit k (cur, a)).2 := by
  induction k generalizing cur a with
  | zero =>
    refine ⟨fun v => ?_, ha, fun i h₁ h₂ => by omega, fun j hj => hj⟩
    have := hin.count v
    rw [hpos] at this
    simpa [cursorVisitBlock] using this
  | succ k ih =>
    have hle := hin.le
    have hlt : s + k < fn.insnCount := by
      have := blockEnd_le (mem_leaders.mp hs).1
      omega
    have hpos' : cur.pos = s + k + 1 := by omega
    obtain ⟨hback, hbackpos⟩ := hin.stepBack hpos' (by omega)
    have hat : cur.pos - 1 = s + k := by omega
    obtain ⟨hinv, hdone, hkept⟩ := hvisit (s + k) hlt cur.live cur.defd
      (fun v hv => hin.mem_live hbt h hs hpos' (by omega) hv)
      (fun v hv => hin.mem_defd hbt h hs hpos' (by omega) hv) a ha
    rw [cursorVisitBlock, hat]
    obtain ⟨hcount, hinv', hall, hkept'⟩ := ih _ _ hback hbackpos hinv
    refine ⟨hcount, hinv', fun i h₁ h₂ => ?_, fun j hj => hkept' j (hkept j hj)⟩
    rcases Nat.lt_or_eq_of_le (Nat.lt_succ_iff.mp h₂) with hlt | rfl
    · exact hall i h₁ hlt
    · exact hkept' _ hdone

/-- The walk over all blocks: the invariant holds at its end, and every instruction was visited. -/
theorem cursorVisit_spec (hbt : fn.NoBitTest) (h : mirCfgBuild fn = some cfg)
    (hvisit : Visits fn visit Inv Done) {a : α} (ha : Inv a) :
    Inv (cursorVisit fn cfg visit a) ∧ ∀ i < fn.insnCount, Done i (cursorVisit fn cfg visit a) := by
  have hfold : ∀ (blocks : List ℕ) (acc : Cursor × α), (∀ s ∈ blocks, s ∈ fn.leaders) →
      (∀ v, acc.1.count v = 0) → Inv acc.2 →
      Inv (blocks.foldl (fun acc s => cursorVisitBlock fn cfg visit (fn.blockEnd s - s)
        (cursorStartBlock fn cfg acc.1 s, acc.2)) acc).2 ∧
      (∀ s ∈ blocks, ∀ i, s ≤ i → i < fn.blockEnd s → Done i (blocks.foldl
        (fun acc s => cursorVisitBlock fn cfg visit (fn.blockEnd s - s)
        (cursorStartBlock fn cfg acc.1 s, acc.2)) acc).2) ∧
      ∀ j, Done j acc.2 → Done j (blocks.foldl
        (fun acc s => cursorVisitBlock fn cfg visit (fn.blockEnd s - s)
        (cursorStartBlock fn cfg acc.1 s, acc.2)) acc).2 := by
    intro blocks
    induction blocks with
    | nil => exact fun acc _ _ hacc => ⟨hacc, nofun, fun j hj => hj⟩
    | cons s rest ih =>
      intro acc hblocks hzero hacc
      have hs := hblocks s (mem_cons_self ..)
      have hlt := fn.lt_blockEnd s
      have hstart := CursorIn.start (defd_val hbt h hs) hzero
      obtain ⟨hcount, hinv, hall, hkept⟩ := cursorVisitBlock_spec hbt h hvisit hs
        (fn.blockEnd s - s) _ acc.2 hstart (by rw [Nat.add_sub_of_le hlt.le]; rfl) hacc
      obtain ⟨hinv', hrest, hkept'⟩ :=
        ih _ (fun s' hs' => hblocks s' (.tail _ hs')) hcount hinv
      refine ⟨hinv', fun s' hs' i h₁ h₂ => ?_, fun j hj => hkept' j (hkept j hj)⟩
      rcases mem_cons.mp hs' with rfl | hs'
      · exact hkept' i (hall i h₁ (by omega))
      · exact hrest s' hs' i h₁ h₂
  obtain ⟨hinv, hall, -⟩ := hfold fn.leaders (cursorInit, a) (fun _ hs => hs) (fun _ => rfl) ha
  exact ⟨hinv, fun i hi => hall _ (blockOf_mem_leaders hi) i (blockOf_le i) (lt_blockEnd_blockOf hi)⟩

end Visit

/-! ## Busy registers -/

/-- The fixed registers of an opcode are pinned. -/
theorem Opcode.regIsPinned_of_mem_fixedGp (op : Opcode) :
    ∀ reg ∈ op.info.fixedGp, Inst.regIsPinned reg = true := by
  cases op <;> decide

/-- Only kernels list what they clobber. -/
theorem Opcode.clobbersListedByKernel_iff (op : Opcode) :
    op.info.clobbersListedByKernel = true ↔ op = .irKernel := by
  cases op <;> decide

/-- Only inline assembly clobbers everything. -/
theorem Opcode.clobbersEveryGp_iff (op : Opcode) :
    op.info.clobbersEveryGp = true ↔ op = .inlineAsm := by
  cases op <;> decide

variable {reg : ℤ} {ins : Inst} {vregs : ℤ → Vreg} {sysv allowRbp : Bool} {vr : Vreg} {t : Target} {facts : RaFacts}

theorem mem_sixteen : reg ∈ sixteen ↔ 0 ≤ reg ∧ reg < 16 := by
  simp only [sixteen, mem_map, mem_range]
  constructor
  · rintro ⟨n, hn, rfl⟩
    exact ⟨Int.natCast_nonneg n, Int.ofNat_lt.mpr hn⟩
  · rintro ⟨h₁, h₂⟩
    exact ⟨reg.toNat, by omega, Int.toNat_of_nonneg h₁⟩

/-- Every register the machine clobbers at an instruction is busy for the allocator. -/
theorem Inst.mem_busyMask (h : ins.gpClobbers reg = true) (h₀ : 0 ≤ reg) (h₁ : reg < 16) : reg ∈ ins.busyMask := by
  rw [busyMask, mem_toFinset, mem_filter]
  refine ⟨mem_sixteen.mpr ⟨h₀, h₁⟩, ?_⟩
  simp only [gpClobbers, decide_eq_true_eq] at h
  simp only [clobbersReg, decide_eq_true_eq]
  rcases h with h | ⟨hkind, hclass, -, -, rfl⟩ | ⟨hkernel, -, hbit⟩ | ⟨hasm, -⟩
  · -- a pinned register, by the opcode or by a variable shift or an unordered comparison
    refine .inr (.inr (.inr (.inr (.inr ⟨?_, h⟩))))
    simp only [fixedGp, mem_append] at h
    rcases h with (h | h) | h
    · exact ins.op.regIsPinned_of_mem_fixedGp reg h
    · split at h
      · rw [mem_singleton.mp h]
        rfl
      · exact absurd h not_mem_nil
    · split at h
      · rw [mem_singleton.mp h]
        rfl
      · exact absurd h not_mem_nil
  · exact .inl (by simp [isFixedGp, hkind, hclass])
  · exact .inr (.inr (.inr (.inl ⟨(Opcode.clobbersListedByKernel_iff _).mp hkernel, h₀, h₁, hbit⟩)))
  · exact .inr (.inr (.inr (.inr (.inl ((Opcode.clobbersEveryGp_iff _).mp hasm)))))

/-- `v` holds a value over instruction `i`: some path wrote it, and it is read later. -/
structure HeldOver (fn : MirFunction) (i : ℕ) (v : ℤ) : Prop where
  liveAfter : LiveAfter fn i v
  writtenAt : WrittenAt fn i v
  notMem : v ∉ fn.defs i

theorem LiveAt.valid {i : ℕ} (h : LiveAt fn i v) : fn.valid v = true := by
  induction h with
  | read huse =>
    simp only [MirFunction.uses, mem_toFinset, mem_filter] at huse
    exact huse.2
  | pass _ _ _ ih => exact ih

/-- Only registers are held over an instruction. -/
theorem HeldOver.valid (h : HeldOver fn i v) : fn.valid v = true :=
  let ⟨_, _, hlive⟩ := h.liveAfter
  hlive.valid

theorem HeldOver.ne_defs (h : HeldOver fn i v) : v ≠ (fn.insn i).defs := by
  rintro rfl
  refine h.notMem ?_
  rw [MirFunction.defs, if_pos h.valid]
  exact Finset.mem_singleton_self _

/-- What an instruction makes busy is in the facts of the registers held over it. -/
theorem mem_clobbered (hbt : fn.NoBitTest) (h : mirCfgBuild fn = some cfg) (hi : i < fn.insnCount)
    (hheld : HeldOver fn i v) (haddr : (fn.vreg v).addressTaken = false) (hnop : (fn.insn i).op ≠ .nop)
    (hreg : reg ∈ (fn.insn i).busyMask) : reg ∈ (factsBuild fn cfg).clobbered v := by
  let Done : ℕ → RaFacts → Prop := fun i facts => ∀ v, HeldOver fn i v →
    (fn.vreg v).addressTaken = false → (fn.insn i).op ≠ .nop →
    (fn.insn i).busyMask ⊆ facts.clobbered v
  have hvisit : Visits fn (factsAt fn) (fun _ => True) Done := by
    intro i hi live defd hlive hdefd facts _
    refine ⟨trivial, fun v hheld haddr hnop => ?_, fun j hj v hheld haddr hnop => ?_⟩
    · simp only [factsAt, if_neg hnop, haddr]
      rw [if_pos ⟨hlive v hheld.liveAfter, hdefd v (.inr hheld.writtenAt), hheld.valid, by simp,
        hheld.ne_defs⟩]
      exact Finset.subset_union_right
    · have hgrow : facts.clobbered v ⊆ (factsAt fn live defd i facts).clobbered v := by
        simp only [factsAt]
        split
        · exact Finset.subset_union_left
        · exact Finset.Subset.refl _
      exact (hj v hheld haddr hnop).trans hgrow
  exact (cursorVisit_spec hbt h hvisit trivial).2 i hi v hheld haddr hnop hreg

/-! ## Call barriers -/

/-- The fields of a register that no step before the colouring changes. -/
structure Vreg.SameShape (a b : Vreg) : Prop where
  rclass : a.rclass = b.rclass
  width : a.width = b.width
  addressTaken : a.addressTaken = b.addressTaken
  homeBytes : a.homeBytes = b.homeBytes
  homeGranule : a.homeGranule = b.homeGranule

theorem Vreg.SameShape.refl (a : Vreg) : a.SameShape a := ⟨rfl, rfl, rfl, rfl, rfl⟩

theorem Vreg.SameShape.trans {a b c : Vreg} (h : a.SameShape b) (h' : b.SameShape c) :
    a.SameShape c :=
  ⟨h.rclass.trans h'.rclass, h.width.trans h'.width, h.addressTaken.trans h'.addressTaken,
    h.homeBytes.trans h'.homeBytes, h.homeGranule.trans h'.homeGranule⟩

/-- A register knows the barrier at `i`. -/
def KnowsBarrier (fn : MirFunction) (i : ℕ) (vr : Vreg) : Prop :=
  (fn.insn i).op.info.callBarrier = true → vr.crossesCall = true ∧
    (vr.crossesPreservingOnly = true → (fn.insn i).op = .call ∧ (fn.insn i).preservesRax = true) ∧
    (vr.crossesXmmPreservingOnly = true → (fn.insn i).op = .call ∧ (fn.insn i).preservesXmm = true)

/-- Marking keeps the shape and the interval of a register. -/
theorem MirFunction.markCrossesAt_shape (fn : MirFunction) (live defd : Finset ℤ) (i : ℕ) (vregs : ℤ → Vreg) (v : ℤ) :
    (fn.markCrossesAt live defd i vregs v).SameShape (vregs v) ∧
      (fn.markCrossesAt live defd i vregs v).hasInterval = (vregs v).hasInterval := by
  simp only [markCrossesAt]
  split
  · exact ⟨.refl _, rfl⟩
  · dsimp only
    split
    · exact ⟨⟨rfl, rfl, rfl, rfl, rfl⟩, rfl⟩
    · exact ⟨.refl _, rfl⟩

/-- A further barrier only takes away. -/
theorem KnowsBarrier.markCrossesAt {live defd : Finset ℤ} {i j : ℕ} (h : KnowsBarrier fn j (vregs v)) :
    KnowsBarrier fn j (fn.markCrossesAt live defd i vregs v) := by
  simp only [MirFunction.markCrossesAt]
  split
  · exact h
  · dsimp only
    split
    · intro hbarrier
      obtain ⟨-, hrax, hxmm⟩ := h hbarrier
      exact ⟨rfl, fun hp => hrax (Bool.and_eq_true_iff.mp hp).1,
        fun hp => hxmm (Bool.and_eq_true_iff.mp hp).1⟩
    · exact h

/-- After the walk every register knows the barriers it is held over. -/
theorem markCrossesCall_spec (hbt : fn.NoBitTest) (h : mirCfgBuild fn = some cfg)
    (vregs : ℤ → Vreg) :
    (∀ v, (fn.markCrossesCall cfg vregs v).SameShape (vregs v) ∧
      (fn.markCrossesCall cfg vregs v).hasInterval = (vregs v).hasInterval) ∧
    ∀ i < fn.insnCount, ∀ v, HeldOver fn i v → KnowsBarrier fn i (fn.markCrossesCall cfg vregs v) := by
  have hvisit : Visits fn fn.markCrossesAt
      (fun a => ∀ v, (a v).SameShape (vregs v) ∧ (a v).hasInterval = (vregs v).hasInterval)
      (fun i a => ∀ v, HeldOver fn i v → KnowsBarrier fn i (a v)) := by
    intro i hi live defd hlive hdefd a ha
    refine ⟨fun v => ?_, fun v hheld => ?_, fun j hj v hheld => (hj v hheld).markCrossesAt⟩
    · obtain ⟨hshape, hinterval⟩ := fn.markCrossesAt_shape live defd i a v
      exact ⟨hshape.trans (ha v).1, hinterval.trans (ha v).2⟩
    · intro hbarrier
      simp only [MirFunction.markCrossesAt, hbarrier, not_true_eq_false, if_false]
      rw [if_pos ⟨hlive v hheld.liveAfter, hdefd v (.inr hheld.writtenAt), hheld.ne_defs⟩]
      refine ⟨rfl, fun hp => ?_, fun hp => ?_⟩
      · exact of_decide_eq_true (Bool.and_eq_true_iff.mp hp).2
      · exact of_decide_eq_true (Bool.and_eq_true_iff.mp hp).2
  exact cursorVisit_spec hbt h hvisit fun v => ⟨⟨rfl, rfl, rfl, rfl, rfl⟩, rfl⟩

/-! ## Masks -/

/-- No instruction writes an allocatable `xmm` register by name while some register of that class holds
a value over it. -/
def XmmWritesDead (fn : MirFunction) (sysv : Bool) : Prop :=
  ∀ i < fn.insnCount, (fn.insn i).op ≠ .nop → (fn.insn i).dst.kind = .phys →
    (fn.insn i).dst.rclass = .xmm → (fn.insn i).dst.phys ∈ xmmAllocatable sysv fn.hasXmmArgCall →
    ∀ v, HeldOver fn i v → (fn.vreg v).rclass = .xmm → (fn.vreg v).addressTaken = true

/-- The registers that are given out. -/
theorem mem_gpPools (h : reg ∈ (if vr.crossesCall then crossPoolFor vr (gpCrosscallPool sysv) else gpLeafPool)) :
    0 ≤ reg ∧ reg < 16 := by
  have hleaf : ∀ reg ∈ gpLeafPool, 0 ≤ reg ∧ reg < 16 := by decide
  have hcross : ∀ sysv, ∀ reg ∈ gpCrosscallPool sysv, 0 ≤ reg ∧ reg < 16 := by decide
  split at h
  · rcases mem_append.mp h with h | h
    · exact hcross sysv reg h
    · split at h
      · rw [mem_singleton.mp h]
        decide
      · exact absurd h not_mem_nil
  · exact hleaf reg h

/-- What the mask of a general register is made of. -/
theorem mem_colorRegMask_gp (hclass : (vregs v).rclass = .gp) (h : reg ∈ fn.colorRegMask t facts allowRbp vregs v) :
    reg ∉ facts.clobbered v ∧ 0 ≤ reg ∧ reg < 16 ∧
      (reg = 5 ∨ reg ∈ (if (vregs v).crossesCall then crossPoolFor (vregs v) (gpCrosscallPool t.sysv)
        else gpLeafPool)) := by
  simp only [colorRegMask, hclass, Finset.mem_union, mem_toFinset, mem_filter,
    decide_eq_true_eq] at h
  rcases h with ⟨hpool, -, -, hfree⟩ | h
  · obtain ⟨h₀, h₁⟩ := mem_gpPools hpool
    exact ⟨hfree, h₀, h₁, .inr hpool⟩
  · split at h
    · rename_i hrbp
      obtain rfl := Finset.mem_singleton.mp h
      exact ⟨hrbp.2, by decide, by decide, .inl rfl⟩
    · exact absurd h (Finset.notMem_empty _)

/-- Masks hold the registers of a class. -/
theorem colorRegMask_sixteen (h : reg ∈ fn.colorRegMask t facts allowRbp vregs v) : reg ∈ sixteen := by
  cases hclass : (vregs v).rclass with
  | gp =>
    obtain ⟨-, h₀, h₁, -⟩ := mem_colorRegMask_gp hclass h
    exact mem_sixteen.mpr ⟨h₀, h₁⟩
  | xmm =>
    have hlow : ∀ reg ∈ Inst.xmmPool, reg ∈ sixteen := by decide
    have hhigh : ∀ reg ∈ xmmNonvolPool, reg ∈ sixteen := by decide
    simp only [colorRegMask, hclass] at h
    split at h
    · exact absurd h (Finset.notMem_empty _)
    rcases Finset.mem_union.mp h with h | h
    · split at h
      · exact absurd h (Finset.notMem_empty _)
      · exact hlow reg (mem_toFinset.mp h)
    · split at h
      · exact absurd h (Finset.notMem_empty _)
      · exact hhigh reg (mem_filter.mp (mem_toFinset.mp h)).1
  | vec =>
    simp only [colorRegMask, hclass] at h
    exact absurd h (Finset.notMem_empty _)

/-- A pool register for values that cross calls survives every barrier the value is known to cross. -/
theorem gpSurvives_of_mem_crossPool (h : reg ∈ crossPoolFor vr (gpCrosscallPool sysv))
    (hrax : vr.crossesPreservingOnly = true → ins.op = .call ∧ ins.preservesRax = true) :
    ins.gpSurvivesBarrier sysv reg = true := by
  rcases mem_append.mp h with h | h
  · cases sysv
    · have : reg = 3 ∨ reg = 6 ∨ reg = 7 ∨ reg = 12 ∨ reg = 13 ∨ reg = 14 ∨ reg = 15 := by
        simpa [gpCrosscallPool] using h
      rcases this with rfl | rfl | rfl | rfl | rfl | rfl | rfl <;> rfl
    · have : reg = 3 ∨ reg = 12 ∨ reg = 13 ∨ reg = 14 ∨ reg = 15 := by
        simpa [gpCrosscallPool] using h
      rcases this with rfl | rfl | rfl | rfl | rfl <;> rfl
  · split at h
    · rename_i hp
      obtain rfl := mem_singleton.mp h
      obtain ⟨hcall, hkeeps⟩ := hrax hp
      simp [Inst.gpSurvivesBarrier, gpRax, hcall, hkeeps]
    · exact absurd h not_mem_nil

/-- No instruction a register is held over overwrites a machine register of its mask. -/
theorem colorRegMask_safe (hbt : fn.NoBitTest) (hxmm : XmmWritesDead fn t.sysv) (h : mirCfgBuild fn = some cfg)
    (hi : i < fn.insnCount) (hheld : HeldOver fn i v) (hshape : (vregs v).SameShape (fn.vreg v))
    (haddr : (vregs v).addressTaken = false) (hbarrier : KnowsBarrier fn i (vregs v))
    (hreg : reg ∈ fn.colorRegMask t (factsBuild fn cfg) allowRbp vregs v) :
    (fn.insn i).overwrites t.sysv (.reg (vregs v).rclass reg) = false := by
  have haddr' : (fn.vreg v).addressTaken = false := hshape.addressTaken ▸ haddr
  by_contra hover
  rw [Bool.not_eq_false] at hover
  -- the class decides which mask was searched; a register overwritten here is in none of them
  cases hclass : (vregs v).rclass with
  | gp =>
    rw [hclass] at hover
    simp only [Inst.overwrites, decide_eq_true_eq] at hover
    obtain ⟨hnop, hover⟩ := hover
    obtain ⟨hfree, h₀, h₁, hpool⟩ := mem_colorRegMask_gp hclass hreg
    rcases hover with ⟨-, -, hclobbers⟩ | ⟨hbar, hdies⟩
    · exact hfree (mem_clobbered hbt h hi hheld haddr' hnop (Inst.mem_busyMask hclobbers h₀ h₁))
    · obtain ⟨hcross, hrax, -⟩ := hbarrier hbar
      rcases hpool with rfl | hpool
      · exact hdies rfl
      · rw [if_pos hcross] at hpool
        exact hdies (gpSurvives_of_mem_crossPool hpool hrax)
  | xmm =>
    rw [hclass] at hover
    simp only [Inst.overwrites, decide_eq_true_eq] at hover
    obtain ⟨hnop, hover⟩ := hover
    simp only [colorRegMask, hclass] at hreg
    split at hreg
    · exact absurd hreg (Finset.notMem_empty _)
    rename_i hcrosses
    rw [Finset.mem_union] at hreg
    rcases hover with ⟨hkind, hdst, rfl⟩ | ⟨hbar, hdies⟩
    · -- an explicit write: the register is in one of the pools
      have hmem : (fn.insn i).dst.phys ∈ xmmAllocatable t.sysv fn.hasXmmArgCall := by
        rw [xmmAllocatable, mem_append]
        rcases hreg with hreg | hreg
        · left
          split at hreg
          · exact absurd hreg (Finset.notMem_empty _)
          · rename_i hcall
            rw [if_neg hcall]
            exact mem_toFinset.mp hreg
        · right
          split at hreg
          · exact absurd hreg (Finset.notMem_empty _)
          · exact mem_toFinset.mp hreg
      have := hxmm i hi hnop hkind hdst hmem v hheld (hshape.rclass ▸ hclass)
      rw [haddr'] at this
      cases this
    · obtain ⟨hcross, -, hkeeps⟩ := hbarrier hbar
      have honly : (vregs v).crossesXmmPreservingOnly = true := by
        by_contra hnot
        exact hcrosses ⟨hcross, hnot⟩
      obtain ⟨hcall, hpres⟩ := hkeeps honly
      rcases hreg with hreg | hreg
      · split at hreg
        · exact absurd hreg (Finset.notMem_empty _)
        · refine hdies ?_
          simp only [Inst.xmmSurvivesBarrier, hcall, hpres, decide_eq_true_eq]
          exact ⟨trivial, trivial, mem_toFinset.mp hreg⟩
      · rw [if_pos hcross] at hreg
        exact absurd hreg (Finset.notMem_empty _)
  | vec =>
    simp only [colorRegMask, hclass] at hreg
    exact absurd hreg (Finset.notMem_empty _)

end Mettle.Mir

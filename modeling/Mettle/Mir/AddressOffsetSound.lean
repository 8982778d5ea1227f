import Mettle.Mir.AddressFollows

/-!
# Folded offsets

The sum of a folded addition reaches its memory operand through copies that nothing else reads, on the only path
there is to the operand. So the function after the fold follows the one before it.
-/

open List Option Function

namespace Mettle.Mir

variable {M V : Type} {H : AddrHost M V}

/-- What the lowering builds: a label has no memory operand, a source register is one of the function, and an operand
based on a home is based on no register. -/
structure MirFunction.WellShaped (fn : MirFunction) : Prop where
  label : ∀ k, (fn.insn k).op = .label → (fn.insn k).a.kind ≠ .mem
  source : ∀ k, (fn.insn k).a.kind = .vreg → fn.valid (fn.insn k).a.vreg = true
  frameHome : ∀ k slot, ((fn.insn k).slot slot).frameHomeValid = true → ((fn.insn k).slot slot).base = -1

/-! ## A changed memory operand -/

section

variable {fn fn' : MirFunction} {D : Set ℤ} {s s' : State M V} {i : Inst} {slot : Slot} {o : Operand}

/-- The slot that is found is a memory operand that was looked for. -/
theorem findSlot_spec {p : Operand → Bool} (h : i.findSlot p = some slot) :
    (i.slot slot).kind = .mem ∧ p (i.slot slot) = true := by
  unfold Inst.findSlot at h
  split at h
  · rename_i ha
    cases h
    exact ha
  · split at h
    · rename_i hdst
      cases h
      exact hdst
    · cases h

/-- Operands with one shape, in memory. -/
structure SameShape (o o' : Operand) : Prop where
  kind : o.kind = .mem
  kind' : o'.kind = .mem
  shape : o'.shape = o.shape

/-- Operands of one shape name the same symbol. -/
theorem SameShape.sym {o' : Operand} (h : SameShape o o') : o'.sym = o.sym := by
  have hshape := congrArg Operand.sym h.shape
  rw [Operand.shape, Operand.shape, if_pos h.kind, if_pos h.kind'] at hshape
  exact hshape

/-- Putting one in the place of the other keeps the shape of the instruction. -/
theorem SameShape.setSlot (h : SameShape (i.slot slot) o) : (i.setSlot slot o).shape = i.shape := by
  have hshape := h.shape
  cases slot with
  | a => exact congrArg (fun x => { i.shape with a := x }) hshape
  | dst => exact congrArg (fun x => { i.shape with dst := x }) hshape

theorem SameShape.sameFlow (h : SameShape (i.slot slot) o) : SameFlow i (i.setSlot slot o) := by
  cases slot with
  | a => exact ⟨rfl, rfl, rfl, .inl rfl⟩
  | dst =>
    have hkind : i.dst.kind = .mem := h.kind
    have hkind' : o.kind = .mem := h.kind'
    refine ⟨?_, h.sym, rfl, .inl rfl⟩
    simp [Inst.isLabel, Inst.setSlot, hkind, hkind']

/-- The other operands of the instruction are the same; the changed one has the same address. -/
theorem SameShape.sameArgs (h : SameShape (i.slot slot) o) (hagree : Agree D s s') (hvregs : fn'.vregs = fn.vregs)
    (hothers : Avoids D (i.setSlot slot {})) (haddr : H.address fn' s' o = H.address fn s (i.slot slot)) :
    SameArgs H fn s i fn' s' (i.setSlot slot o) := by
  have hargs := hothers.sameArgs (H := H) hagree hvregs
  have hslot : H.arg fn' s' o = H.arg fn s (i.slot slot) := by
    rw [AddrHost.arg, AddrHost.arg, h.kind, h.kind', haddr]
  cases slot with
  | a => exact ⟨hslot, hargs.b, hargs.dst⟩
  | dst =>
    refine ⟨hargs.a, hargs.b, ?_⟩
    have hdst : H.dstArg fn s i = H.arg fn s i.dst := if_pos (.inl h.kind)
    have hdst' : H.dstArg fn' s' (i.setSlot .dst o) = H.arg fn' s' o := if_pos (.inl h.kind')
    rw [hdst, hdst']
    exact hslot

/-- An instruction with a memory operand computes no register from one. -/
theorem not_isPlain_of_slot (h : (i.slot slot).kind = .mem) : ¬ i.IsPlain := by
  have hkinds : i.IsPlain → i.a.kind = .vreg ∧ i.dst.kind = .vreg := by
    rintro (hi | hi | hi)
    · exact ⟨isCopy_a hi, (isCopy_op hi).2⟩
    · exact ⟨(isImmArith_spec hi).2.2.2.2.1, (isImmArith_spec hi).2.2.2.1⟩
    · exact ⟨(isImmArith_spec hi).2.2.2.2.1, (isImmArith_spec hi).2.2.2.1⟩
  intro hi
  obtain ⟨ha, hdst⟩ := hkinds hi
  cases slot with
  | a => exact absurd (ha.symm.trans h) (by decide)
  | dst => exact absurd (hdst.symm.trans h) (by decide)

/-- Every other instruction is left to the host. -/
theorem step_of_not_isPlain (hi : ¬ i.IsPlain) :
    H.step fn s i = if i.op = .nop ∨ i.op = .label then some s else H.execHost fn s i := by
  unfold AddrHost.step
  rw [if_neg (fun h => hi (.inl h) : ¬ i.isCopy = true),
    if_neg (fun h => hi (.inr (.inl h)) : ¬ i.isImmArith .add = true),
    if_neg (fun h => hi (.inr (.inr h)) : ¬ i.isImmArith .imul = true)]

/-- An instruction whose operand is replaced by one of the same shape and value does the same. -/
theorem SameShape.step (h : SameShape (i.slot slot) o) (hagree : Agree D s s') (hvregs : fn'.vregs = fn.vregs)
    (hargs : SameArgs H fn s i fn' s' (i.setSlot slot o)) {s₁ : State M V} (hstep : H.step fn s i = some s₁) :
    ∃ s₁', H.step fn' s' (i.setSlot slot o) = some s₁' ∧ Agree D s₁ s₁' := by
  have hslot : ((i.setSlot slot o).slot slot).kind = .mem := by
    cases slot with
    | a => exact h.kind'
    | dst => exact h.kind'
  have hop : (i.setSlot slot o).op = i.op := by cases slot <;> rfl
  rw [step_of_not_isPlain (not_isPlain_of_slot h.kind)] at hstep
  rw [step_of_not_isPlain (not_isPlain_of_slot hslot), hop]
  split at hstep
  · rename_i hnop
    rw [if_pos hnop]
    exact ⟨s', rfl, some.inj hstep ▸ hagree⟩
  · rename_i hnop
    rw [if_neg hnop]
    exact hagree.execHost hvregs h.setSlot hargs hstep

/-- What a changed operand does to the registers an instruction reads. -/
theorem count_setSlot (hkind : (i.slot slot).kind = .mem) (hkind' : o.kind ≠ .vreg) (hop : i.op ≠ .nop) (v : ℤ) :
    (i.setSlot slot o).readList.count v + (i.slot slot).vregs.count v = i.readList.count v + o.vregs.count v := by
  cases slot with
  | a =>
    show (if i.op = .nop then [] else o.vregs ++ i.b.vregs ++ if i.dst.kind = .vreg then [] else i.dst.vregs).count v +
      i.a.vregs.count v = _
    rw [Inst.readList, if_neg hop, if_neg hop]
    simp only [count_append]
    omega
  | dst =>
    have hd : i.dst.kind = .mem := hkind
    simp only [Inst.readList, Inst.setSlot, Inst.slot, hop, hd, hkind', reduceCtorEq, if_false, count_append]
    omega

/-- The registers of an address are among those the instruction reads. -/
theorem mem_readList_slot (hop : i.op ≠ .nop) (h : (i.slot slot).kind = .mem) {v : ℤ}
    (hv : v ∈ (i.slot slot).vregs) : v ∈ i.readList := by
  rw [Inst.readList, if_neg hop]
  cases slot with
  | a => exact mem_append_left _ (mem_append_left _ hv)
  | dst =>
    have hd : i.dst.kind = .mem := h
    rw [hd, if_neg (by decide)]
    exact mem_append_right _ hv

/-- An instruction whose reads avoid `D`, and that writes no register of it. -/
theorem avoids_of_readList (hop : i.op ≠ .nop) (hread : ∀ v ∈ i.readList, v ∉ D)
    (hwrite : ∀ v, i.writes v = true → v ∉ D) : Avoids D i := by
  rw [Inst.readList, if_neg hop] at hread
  refine ⟨fun v hv => hread v (mem_append_left _ (mem_append_left _ hv)),
    fun v hv => hread v (mem_append_left _ (mem_append_right _ hv)), fun _ v hv => ?_⟩
  by_cases hkind : i.dst.kind = .vreg
  · rw [Operand.vregs, hkind, mem_singleton] at hv
    apply hwrite
    simp only [Inst.writes, decide_eq_true_eq]
    exact ⟨hop, hkind, hv.symm⟩
  · apply hread
    rw [if_neg hkind]
    exact mem_append_right _ hv

end

/-! ## The chain of copies -/

namespace Folding

variable (st : Folding) (defs : ℤ → ℕ)

/-- From the instruction after `u` on, copies carry the address in `cur` to the base of a memory operand. -/
inductive Carries : ℤ → ℕ → ChaseResult → Prop
  | found {cur : ℤ} {u : ℕ} {slot : Slot} : (st.fn.insn (u + 1)).op ≠ .nop →
    ((st.fn.insn (u + 1)).findSlot fun o => o.base = cur) = some slot → Carries cur u ⟨cur, u + 1, slot, []⟩
  | nop {cur : ℤ} {u : ℕ} {r : ChaseResult} : (st.fn.insn (u + 1)).op = .nop → Carries cur (u + 1) r → Carries cur u r
  | link {cur : ℤ} {u : ℕ} {r : ChaseResult} : st.isLink defs (st.fn.insn (u + 1)) cur = true →
    Carries (st.fn.insn (u + 1)).dst.vreg (u + 1) r → Carries cur u { r with chain := (u + 1) :: r.chain }

variable {st defs}

/-- A chase that succeeds ends at a use of the address, behind copies that carry it. -/
theorem chase_carries {fuel : ℕ} {cur : ℤ} {u : ℕ} {chain : List ℕ} {r : ChaseResult}
    (h : st.chase defs fuel cur u chain = some r) :
    ∃ r', Carries st defs cur u r' ∧ r = { r' with chain := chain ++ r'.chain } := by
  induction fuel generalizing cur u chain with
  | zero => cases h
  | succ fuel ih =>
    unfold chase at h
    simp only at h
    split at h
    · cases h
    split at h
    · rename_i hnop
      obtain ⟨r', hr', heq⟩ := ih h
      exact ⟨r', .nop hnop hr', heq⟩
    rename_i hnop
    split at h
    · rename_i slot hslot
      exact ⟨_, .found hnop hslot, by rw [← some.inj h, append_nil]⟩
    · split at h
      · rename_i hlink
        obtain ⟨r', hr', heq⟩ := ih h
        exact ⟨_, .link hlink.2 hr', by rw [heq, append_assoc, singleton_append]⟩
      · cases h

/-- A link of the chain is a copy from a register used once to one defined once. -/
theorem isLink_spec {i : Inst} {cur : ℤ} (h : st.isLink defs i cur = true) :
    i.isCopy = true ∧ i.a.vreg = cur ∧ i.a.kind = .vreg ∧ st.uses cur = 1 ∧ defs i.dst.vreg = 1 ∧
      (st.fn.vreg i.dst.vreg).addressTaken = false := by
  simp only [isLink, decide_eq_true_eq, Bool.not_eq_true] at h
  refine ⟨?_, h.2.2.2.1, h.2.2.1, h.2.2.2.2.2.1, h.2.2.2.2.2.2.1, h.2.2.2.2.2.2.2⟩
  simp only [Inst.isCopy, decide_eq_true_eq]
  exact ⟨h.1, h.2.1, h.2.2.1⟩

namespace Carries

variable {cur : ℤ} {u : ℕ} {r : ChaseResult}

section

variable (h : Carries st defs cur u r)
include h

theorem lt_site : u < r.site := by
  induction h with
  | found => exact Nat.lt_succ_self _
  | nop _ _ ih => exact Nat.lt_of_succ_lt ih
  | link _ _ ih => exact Nat.lt_of_succ_lt ih

/-- The use is a memory operand with the register as its base. -/
theorem site :
    (st.fn.insn r.site).op ≠ .nop ∧ ((st.fn.insn r.site).slot r.slot).kind = .mem ∧
      ((st.fn.insn r.site).slot r.slot).base = r.cur := by
  induction h with
  | found hop hslot => exact ⟨hop, (findSlot_spec hslot).1, decide_eq_true_eq.mp (findSlot_spec hslot).2⟩
  | nop _ _ ih => exact ih
  | link _ _ ih => exact ih

/-- The copies lie between, and each writes a register nothing else writes. -/
theorem chain {j : ℕ} (hj : j ∈ r.chain) :
    (u < j ∧ j < r.site) ∧ (st.fn.insn j).isCopy = true ∧ defs (st.fn.insn j).dst.vreg = 1 ∧
      (st.fn.vreg (st.fn.insn j).dst.vreg).addressTaken = false := by
  induction h with
  | found => cases hj
  | nop _ _ ih =>
    obtain ⟨hbetween, hrest⟩ := ih hj
    exact ⟨⟨Nat.lt_of_succ_lt hbetween.1, hbetween.2⟩, hrest⟩
  | link hlink hr ih =>
    rcases mem_cons.mp hj with rfl | hj
    · obtain ⟨hcopy, _, _, _, hdefs, hreg⟩ := isLink_spec hlink
      exact ⟨⟨Nat.lt_succ_self _, hr.lt_site⟩, hcopy, hdefs, hreg⟩
    · obtain ⟨hbetween, hrest⟩ := ih hj
      exact ⟨⟨Nat.lt_of_succ_lt hbetween.1, hbetween.2⟩, hrest⟩

/-- What lies between is nothing or a copy of the chain. -/
theorem between {q : ℕ} (hlo : u < q) (hhi : q < r.site) : (st.fn.insn q).op = .nop ∨ q ∈ r.chain := by
  induction h with
  | @found cur u slot =>
    have hsite : q < u + 1 := hhi
    omega
  | @nop cur u r hnop hr ih =>
    by_cases hq : q = u + 1
    · exact .inl (hq ▸ hnop)
    · exact ih (by omega) hhi
  | @link cur u r hlink hr ih =>
    by_cases hq : q = u + 1
    · exact .inr (hq ▸ (.head _))
    · exact (ih (by omega) hhi).imp_right (mem_cons_of_mem _)

/-- Each register that carries the address is read by a copy or the operand, and there is one use counted of it,
given that of the last. -/
theorem carried (hlast : st.uses r.cur = 1) {v : ℤ} (hv : v = cur ∨ ∃ j ∈ r.chain, v = (st.fn.insn j).dst.vreg) :
    st.uses v = 1 ∧ ((v = r.cur) ∨ ∃ j ∈ r.chain, v ∈ (st.fn.insn j).readList) := by
  induction h with
  | found =>
    rcases hv with rfl | ⟨j, hj, _⟩
    · exact ⟨hlast, .inl rfl⟩
    · cases hj
  | nop _ _ ih => exact ih hlast hv
  | @link cur u r hlink hr ih =>
    obtain ⟨hcopy, ha, hkind, huses, _⟩ := isLink_spec hlink
    rcases hv with rfl | ⟨j, hj, hv⟩
    · refine ⟨huses, .inr ⟨u + 1, mem_cons_self, ?_⟩⟩
      have hop := (isCopy_op hcopy).1
      rw [Inst.readList, if_neg (by rw [hop]; decide), Operand.vregs, hkind, ha]
      exact mem_append_left _ (mem_append_left _ (.head _))
    · have hv' : v = (st.fn.insn (u + 1)).dst.vreg ∨ ∃ j ∈ r.chain, v = (st.fn.insn j).dst.vreg := by
        rcases mem_cons.mp hj with rfl | hj
        · exact .inl hv
        · exact .inr ⟨j, hj, hv⟩
      obtain ⟨huses', hread⟩ := ih hlast hv'
      apply And.intro huses'
      rcases hread with hlast' | ⟨j, hj, hj'⟩
      · exact .inl hlast'
      · exact .inr ⟨j, mem_cons_of_mem _ hj, hj'⟩

/-- Running the chain carries the value on, and changes nothing but the registers it is copied to. -/
theorem run (s : State M V) :
    ∃ s', H.run st.fn s (range' (u + 1) (r.site - (u + 1))) = some s' ∧
      H.read st.fn s' r.cur = H.read st.fn s cur ∧
      Agree {v | ∃ j ∈ r.chain, v = (st.fn.insn j).dst.vreg} s s' := by
  induction h generalizing s with
  | found =>
    refine ⟨s, ?_, rfl, .refl _ _⟩
    rw [Nat.sub_self]
    rfl
  | @nop cur u r hnop hr ih =>
    have hlt := hr.lt_site
    obtain ⟨s', hrun, hread, hagree⟩ := ih s
    refine ⟨s', ?_, hread, hagree⟩
    rw [show r.site - (u + 1) = r.site - (u + 1 + 1) + 1 by omega, range'_succ, AddrHost.run, step_nop hnop]
    exact hrun
  | @link cur u r hlink hr ih =>
    have hlt := hr.lt_site
    obtain ⟨hcopy, ha, _, _, _, hreg⟩ := isLink_spec hlink
    obtain ⟨s', hrun, hread, hagree⟩ := ih (H.write st.fn s (st.fn.insn (u + 1)).dst.vreg (H.read st.fn s cur))
    refine ⟨s', ?_, hread.trans ?_, ?_⟩
    · show H.run st.fn s (range' (u + 1) (r.site - (u + 1))) = _
      rw [show r.site - (u + 1) = r.site - (u + 1 + 1) + 1 by omega, range'_succ, AddrHost.run, step_copy hcopy, ha]
      exact hrun
    · rw [AddrHost.write, hreg, AddrHost.read, hreg]
      exact update_self _ _ _
    · refine ⟨?_, fun v hv => ?_⟩
      · rw [hagree.machine, AddrHost.write, hreg]
        rfl
      · have hne : v ≠ (st.fn.insn (u + 1)).dst.vreg := fun heq => hv ⟨u + 1, mem_cons_self, heq⟩
        have houtside : v ∉ {v | ∃ j ∈ r.chain, v = (st.fn.insn j).dst.vreg} := by
          rintro ⟨j, hj, hv'⟩
          exact hv ⟨j, mem_cons_of_mem _ hj, hv'⟩
        rw [hagree.regs v houtside, AddrHost.write, hreg]
        exact update_of_ne hne _ _

end

end Carries

/-! ## The fold -/

/-- The counts are no less than what they count. -/
structure Counted (st : Folding) (defs : ℤ → ℕ) : Prop where
  uses : ∀ v, st.fn.valid v = true → st.fn.readCount v ≤ st.uses v
  invalid : ∀ v, st.fn.valid v = false → st.uses v = 0
  defs : ∀ v, st.fn.writeCount v ≤ defs v

/-- A register whose uses are counted as one is read at most once. -/
theorem Counted.read_le_one (h : Counted st defs) {v : ℤ} (hv : st.uses v = 1) :
    st.fn.valid v = true ∧ st.fn.readCount v ≤ 1 := by
  have hvalid : st.fn.valid v = true := by
    by_contra hinvalid
    have hzero := h.invalid v (Bool.not_eq_true _ ▸ hinvalid)
    omega
  exact ⟨hvalid, hv ▸ h.uses v hvalid⟩

/-- What the tests of the pass establish about an addition and the operand it is folded into. -/
structure OffsetFold (st : Folding) (defs : ℤ → ℕ) (k : ℕ) (r : ChaseResult) : Prop where
  add : (st.fn.insn k).isImmArith .add = true
  ne : (st.fn.insn k).dst.vreg ≠ (st.fn.insn k).a.vreg
  once : defs (st.fn.insn k).dst.vreg = 1
  reg : (st.fn.vreg (st.fn.insn k).dst.vreg).addressTaken = false
  carries : Carries st defs (st.fn.insn k).dst.vreg k r
  last : st.uses r.cur = 1
  index : ((st.fn.insn r.site).slot r.slot).index ≠ r.cur
  phys : ((st.fn.insn r.site).slot r.slot).physBaseValid = false

/-- An offset that is found is a fold. -/
theorem findOffset_spec {k : ℕ} {r : ChaseResult} (h : st.findOffset defs k = some r) : OffsetFold st defs k r := by
  unfold findOffset at h
  simp only at h
  split at h
  · cases h
  rename_i hadd
  split at h
  · cases h
  rename_i hguard
  split at h
  · cases h
  rw [filter_eq_some_iff] at h
  obtain ⟨hchase, hok⟩ := h
  simp only [decide_eq_true_eq, Bool.not_eq_true] at hok
  obtain ⟨r', hcarries, rfl⟩ := chase_carries hchase
  simp only [not_or, ne_eq, Decidable.not_not, Bool.not_eq_true] at hguard
  refine ⟨by simpa using hadd, hguard.1, hguard.2.2.1, hguard.2.2.2, ?_, hok.1, hok.2.1, hok.2.2.1⟩
  simpa only [nil_append] using hcarries

/-- The registers a fold leaves unused. -/
def OffsetFold.dead (st : Folding) (k : ℕ) (r : ChaseResult) : Set ℤ :=
  {v | v = (st.fn.insn k).dst.vreg ∨ ∃ j ∈ r.chain, v = (st.fn.insn j).dst.vreg}

section

variable {k : ℕ} {r : ChaseResult}

/-- A register the fold leaves unused has one reader: the operand for the last, a copy for the others. -/
theorem OffsetFold.reader (h : OffsetFold st defs k r) (hcount : Counted st defs) {v : ℤ} (hv : v ∈ OffsetFold.dead st k r)
    {q : ℕ} (hq : v ∈ (st.fn.insn q).readList) (hqn : q < st.fn.insnCount) :
    st.fn.readCount v ≤ 1 ∧ (q = r.site ∧ v = r.cur ∨ q ∈ r.chain) := by
  obtain ⟨huses, hread⟩ := h.carries.carried h.last hv
  obtain ⟨_, hone⟩ := hcount.read_le_one huses
  refine ⟨hone, ?_⟩
  obtain ⟨hop, hmem, hbase⟩ := h.carries.site
  rcases hread with rfl | ⟨j, hj, hjread⟩
  · refine .inl ⟨read_unique hone hq hqn (mem_readList_slot hop hmem ?_) (lt_insnCount_of_op hop), rfl⟩
    rw [Operand.vregs, hmem, hbase]
    exact .head _
  · have hjop : (st.fn.insn j).op ≠ .nop := by
      rw [(isCopy_op (h.carries.chain hj).2.1).1]
      decide
    exact .inr (read_unique hone hq hqn hjread (lt_insnCount_of_op hjop) ▸ hj)

/-- A plain instruction writes its destination. -/
theorem writes_of_isPlain {i : Inst} (h : i.IsPlain) : i.writes i.dst.vreg = true := by
  obtain ⟨hop, hkind⟩ := h.op
  simp only [Inst.writes, decide_eq_true_eq]
  refine ⟨?_, hkind, trivial⟩
  rcases hop with hop | hop | hop <;> rw [hop] <;> decide

theorem op_of_isPlain {i : Inst} (h : i.IsPlain) : i.op ≠ .nop := by
  rcases h.op.1 with hop | hop | hop <;> rw [hop] <;> decide

section

variable (h : OffsetFold st defs k r)
include h

/-- It is written by the addition or a copy. -/
theorem OffsetFold.writer (hcount : Counted st defs) {v : ℤ} (hv : v ∈ OffsetFold.dead st k r) {q : ℕ}
    (hq : (st.fn.insn q).writes v = true) : q = k ∨ q ∈ r.chain := by
  have hqop : (st.fn.insn q).op ≠ .nop := by
    simp only [Inst.writes, decide_eq_true_eq] at hq
    exact hq.1
  have hunique {j : ℕ} (hplain : (st.fn.insn j).IsPlain) (hdefs : defs (st.fn.insn j).dst.vreg = 1)
      (heq : v = (st.fn.insn j).dst.vreg) : q = j := by
    subst heq
    have hone := hdefs ▸ hcount.defs (st.fn.insn j).dst.vreg
    exact write_unique hone hq (lt_insnCount_of_op hqop) (writes_of_isPlain hplain)
      (lt_insnCount_of_op (op_of_isPlain hplain))
  rcases hv with heq | ⟨j, hj, heq⟩
  · exact .inl (hunique (.inr (.inl h.add)) h.once heq)
  · obtain ⟨_, hcopy, hdefs, _⟩ := h.carries.chain hj
    exact .inr (hunique (.inl hcopy) hdefs heq ▸ hj)

theorem OffsetFold.source_read : (st.fn.insn k).a.vreg ∈ (st.fn.insn k).readList := by
  obtain ⟨hop, _, _, _, ha, _⟩ := isImmArith_spec h.add
  rw [Inst.readList, if_neg (by rw [hop]; decide), Operand.vregs, ha]
  exact mem_append_left _ (mem_append_left _ (.head _))

/-- The addition is an instruction of the function. -/
theorem OffsetFold.lt : k < st.fn.insnCount := by
  apply lt_insnCount_of_op
  rw [(isImmArith_spec h.add).1]
  decide

/-- The other summand stays in use. -/
theorem OffsetFold.source_notin (hcount : Counted st defs) : (st.fn.insn k).a.vreg ∉ OffsetFold.dead st k r := by
  intro hv
  rcases (h.reader hcount hv h.source_read h.lt).2 with ⟨hsite, _⟩ | hchain
  · exact absurd hsite h.carries.lt_site.ne
  · exact absurd (h.carries.chain hchain).1.1 (lt_irrefl _)

/-- The other operands of the instruction with the memory operand read no register that goes out of use. -/
theorem OffsetFold.site_avoids (hcount : Counted st defs) :
    Avoids (OffsetFold.dead st k r) ((st.fn.insn r.site).setSlot r.slot {}) ∧
      ((st.fn.insn r.site).slot r.slot).index ∉ OffsetFold.dead st k r := by
  obtain ⟨hop, hmem, hbase⟩ := h.carries.site
  have hsiteLt := lt_insnCount_of_op hop
  -- of the registers that go, the operand reads the last one only
  have hcur {v : ℤ} (hv : v ∈ OffsetFold.dead st k r) (hread : v ∈ (st.fn.insn r.site).readList) : v = r.cur := by
    rcases (h.reader hcount hv hread hsiteLt).2 with ⟨_, hcur⟩ | hchain
    · exact hcur
    · exact absurd (h.carries.chain hchain).1.2 (lt_irrefl _)
  have hone : (st.fn.insn r.site).readList.count r.cur ≤ 1 :=
    read_once (hcount.read_le_one h.last).2 hsiteLt
  have hbaseCount : 1 ≤ ((st.fn.insn r.site).slot r.slot).vregs.count r.cur := by
    apply count_pos_iff.mpr
    rw [Operand.vregs, hmem, hbase]
    exact .head _
  constructor
  · apply avoids_of_readList
    · cases r.slot <;> exact hop
    · intro v hread hv
      have hcount' := count_setSlot (o := {}) hmem (by decide) hop v
      have hpos := count_pos_iff.mpr hread
      have hempty : (({} : Operand).vregs).count v = 0 := rfl
      have hvcur : v = r.cur := hcur hv (count_pos_iff.mp (by omega))
      subst hvcur
      omega
    · intro v hwrites hv
      have hwrites' : (st.fn.insn r.site).writes v = true := by
        simp only [Inst.writes, decide_eq_true_eq] at hwrites ⊢
        revert hwrites
        cases hslot : r.slot with
        | a => exact id
        | dst => exact fun hw => absurd (show OperandKind.none = .vreg from hw.2.1) (by decide)
      rcases h.writer hcount hv hwrites' with hk | hchain
      · exact absurd hk h.carries.lt_site.ne'
      · exact absurd (h.carries.chain hchain).1.2 (lt_irrefl _)
  · intro hv
    apply h.index
    apply hcur hv
    apply mem_readList_slot hop hmem
    rw [Operand.vregs, hmem]
    exact .tail _ mem_cons_self

/-- The instructions the fold does not touch keep clear of the registers that go out of use. -/
theorem OffsetFold.avoids (hcount : Counted st defs) {q : ℕ} (hop : (st.fn.insn q).op ≠ .nop) (hk : q ≠ k)
    (hsite : q ≠ r.site) (hchain : q ∉ r.chain) : Avoids (OffsetFold.dead st k r) (st.fn.insn q) := by
  apply avoids_of_readList hop
  · intro v hread hv
    rcases (h.reader hcount hv hread (lt_insnCount_of_op hop)).2 with ⟨heq, _⟩ | hin
    · exact hsite heq
    · exact hchain hin
  · intro v hwrites hv
    exact (h.writer hcount hv hwrites).elim hk hchain

end

end

end Folding

/-! ## The one path to the operand -/

section

variable {fn : MirFunction}

/-- Where a label is found there is one. -/
theorem isLabel_of_labelFind {name : Option String} {j : ℕ} (h : fn.labelFind name = some j) :
    (fn.insn j).isLabel = true := by
  cases name with
  | none => cases h
  | some name =>
    obtain ⟨hlt, hfound, _⟩ := findIdx?_eq_some_iff_getElem.mp h
    rw [MirFunction.insn, getD_eq_getElem _ _ hlt]
    exact (Bool.and_eq_true_iff.mp hfound).1

/-- Control comes to anything but a label from the instruction before. -/
theorem eq_succ_of_mem_next {i j : ℕ} (h : j ∈ fn.next i) (hlabel : (fn.insn j).isLabel = false) : j = i + 1 := by
  rw [MirFunction.next, mem_append] at h
  rcases h with h | h
  · exfalso
    obtain ⟨t, ht, hid⟩ := mem_filterMap.mp h
    obtain rfl : t = some j := hid
    have hfound : ∃ name, fn.labelFind name = some j := by
      simp only [MirFunction.targets] at ht
      split at ht
      · exact ⟨_, (mem_singleton.mp ht).symm⟩
      split at ht
      · obtain ⟨name, -, hname⟩ := List.mem_map.mp ht
        exact ⟨name, hname⟩
      · exact absurd ht not_mem_nil
    obtain ⟨name, hname⟩ := hfound
    rw [isLabel_of_labelFind hname] at hlabel
    cases hlabel
  · split at h
    · exact mem_singleton.mp h
    · exact absurd h not_mem_nil

/-- Where no label stands, control comes from above. -/
theorem IsPath.straight {t : List ℕ} {pc k : ℕ} (h : IsPath fn t pc) (hk : k < pc)
    (hlabel : ∀ q, k < q → q ≤ pc → (fn.insn q).isLabel = false) :
    ∃ t₀, IsPath fn t₀ k ∧ t = t₀ ++ range' k (pc - k) := by
  induction h with
  | entry => omega
  | @step t pc pc' hpath hmem ih =>
    have hpc : pc' = pc + 1 := eq_succ_of_mem_next hmem (hlabel pc' hk le_rfl)
    subst hpc
    by_cases hkpc : k = pc
    · subst hkpc
      exact ⟨t, hpath, by rw [Nat.add_sub_cancel_left]; rfl⟩
    · obtain ⟨t₀, hpath₀, ht⟩ := ih (by omega) fun q hq hle => hlabel q hq (by omega)
      refine ⟨t₀, hpath₀, ?_⟩
      rw [ht, show pc + 1 - k = pc - k + 1 by omega, range'_concat, append_assoc]
      congr 3
      omega

end

/-! ## The function after the fold -/

namespace Folding

variable {st : Folding} {defs : ℤ → ℕ} {k : ℕ} {r : ChaseResult} {start : State M V}

/-- The operand after the fold. -/
def OffsetFold.operand (st : Folding) (k : ℕ) (r : ChaseResult) : Operand :=
  let mem := (st.fn.insn r.site).slot r.slot
  { mem with base := (st.fn.insn k).a.vreg, disp := mem.disp + (st.fn.insn k).b.imm }

/-- The instructions after the fold: the addition and the copies are dropped, the use has the new operand. -/
theorem OffsetFold.insn (h : OffsetFold st defs k r) (j : ℕ) :
    (st.applyOffset k r).fn.insn j =
      if j = k ∨ j ∈ r.chain then (st.fn.insn j).dropped
      else if j = r.site then (st.fn.insn r.site).setSlot r.slot (OffsetFold.operand st k r) else st.fn.insn j := by
  have hsite := h.carries.lt_site
  have hsiteLt := lt_insnCount_of_op h.carries.site.1
  have hedit := insn_edit st.fn r.site (fun i => i.setSlot r.slot (OffsetFold.operand st k r)) j
  refine ((drop_edits _ (k :: r.chain)).2.2 j).trans ?_
  rw [edit_insnCount]
  by_cases hj : j = k ∨ j ∈ r.chain
  · have hlt : j < r.site := by
      rcases hj with rfl | hj
      · exact hsite
      · exact (h.carries.chain hj).1.2
    rw [if_neg fun heq => hlt.ne heq.1] at hedit
    rw [if_pos ⟨mem_cons.mpr hj, hlt.trans hsiteLt⟩, if_pos hj]
    exact congrArg Inst.dropped hedit
  · rw [if_neg fun hin => hj (mem_cons.mp hin.1), if_neg hj]
    refine hedit.trans ?_
    by_cases heq : j = r.site
    · rw [if_pos ⟨heq, hsiteLt⟩, if_pos heq]
    · rw [if_neg fun hin => heq hin.1, if_neg heq]

/-- What is dropped are plain instructions whose results are dead then. -/
theorem OffsetFold.isPlain (h : OffsetFold st defs k r) {j : ℕ} (hj : j = k ∨ j ∈ r.chain) :
    (st.fn.insn j).IsPlain ∧ (st.fn.insn j).dst.vreg ∈ OffsetFold.dead st k r ∧
      (st.fn.vreg (st.fn.insn j).dst.vreg).addressTaken = false := by
  rcases hj with rfl | hj
  · exact ⟨.inr (.inl h.add), .inl rfl, h.reg⟩
  · obtain ⟨_, hcopy, _, hreg⟩ := h.carries.chain hj
    exact ⟨.inl hcopy, .inr ⟨j, hj, rfl⟩, hreg⟩

/-- The new operand has the shape of the old one. -/
theorem OffsetFold.sameShape (h : OffsetFold st defs k r) :
    SameShape ((st.fn.insn r.site).slot r.slot) (OffsetFold.operand st k r) := by
  have hmem := h.carries.site.2.1
  refine ⟨hmem, hmem, ?_⟩
  rw [Operand.shape, if_pos (show (OffsetFold.operand st k r).kind = .mem from hmem), Operand.shape, if_pos hmem]
  rfl

section

variable (h : OffsetFold st defs k r) (hcount : Counted st defs) (hshaped : st.fn.WellShaped)
include h hcount hshaped

/-- Arriving at the operand, its base holds the sum. -/
theorem OffsetFold.base_value {t : List ℕ} {s : State M V} (hpath : IsPath st.fn t r.site)
    (hrun : H.run st.fn start t = some s) :
    H.word (H.read st.fn s r.cur) =
      H.word (H.read st.fn s (st.fn.insn k).a.vreg) + BitVec.ofInt 64 (st.fn.insn k).b.imm := by
  -- no label between the chain and the operand, so the path runs straight through
  have hlabel : ∀ q, k < q → q ≤ r.site → (st.fn.insn q).isLabel = false := by
    intro q hlo hhi
    rw [Inst.isLabel, decide_eq_false_iff_not]
    rintro ⟨hop, hkind, _⟩
    rcases Nat.lt_or_eq_of_le hhi with hlt | rfl
    · rcases h.carries.between hlo hlt with hnop | hchain
      · exact absurd (hop.symm.trans hnop) (by decide)
      · exact absurd (hop.symm.trans (isCopy_op (h.carries.chain hchain).2.1).1) (by decide)
    · have hmem := h.carries.site.2.1
      cases hslot : r.slot with
      | a => exact hshaped.label _ hop (by rw [hslot] at hmem; exact hmem)
      | dst =>
        rw [hslot] at hmem
        exact absurd (hkind.symm.trans hmem) (by decide)
  have hlt := h.carries.lt_site
  obtain ⟨t₀, -, rfl⟩ := hpath.straight hlt hlabel
  rw [show r.site - k = r.site - (k + 1) + 1 by omega, range'_succ, ← singleton_append, H.run_append] at hrun
  obtain ⟨s₀, -, hrest⟩ := bind_eq_some_iff.mp hrun
  rw [H.run_append] at hrest
  obtain ⟨s₁, hstep, hchain⟩ := bind_eq_some_iff.mp hrest
  simp only [AddrHost.run, step_add h.add, bind_some, some.injEq] at hstep
  subst hstep
  obtain ⟨s₂, hrun₂, hread, hagree⟩ := h.carries.run
    (H.write st.fn s₀ (st.fn.insn k).dst.vreg
      (H.ofWord (H.word (H.read st.fn s₀ (st.fn.insn k).a.vreg) + BitVec.ofInt 64 (st.fn.insn k).b.imm)))
  obtain rfl : s₂ = s := some.inj (hrun₂.symm.trans hchain)
  have hsource := h.source_notin hcount
  have hsum : Agree (OffsetFold.dead st k r) s₂ s₀ := by
    refine ⟨?_, fun v hv => ?_⟩
    · rw [hagree.machine, AddrHost.write, h.reg]
      rfl
    · rw [hagree.regs v fun hin => hv (.inr hin), AddrHost.write, h.reg]
      exact (update_of_ne (fun heq => hv (.inl heq)) _ _).symm
  rw [hread, ← hsum.read rfl hsource]
  rw [AddrHost.read, AddrHost.write, h.reg]
  simp only [Bool.false_eq_true, if_false, update_self, H.word_ofWord]

/-- The operand is not based on a home. -/
theorem OffsetFold.home : ((st.fn.insn r.site).slot r.slot).frameHomeValid = false := by
  by_contra hvalid
  have hnone := hshaped.frameHome _ _ (Bool.not_eq_false _ ▸ hvalid)
  have hcur := (hcount.read_le_one h.last).1
  rw [← h.carries.site.2.2, hnone] at hcur
  simp [MirFunction.valid] at hcur

/-- The operand has the same address after the fold. -/
theorem OffsetFold.address {t : List ℕ} {s s' : State M V} (hpath : IsPath st.fn t r.site)
    (hrun : H.run st.fn start t = some s) (hagree : Agree (OffsetFold.dead st k r) s s') {fn' : MirFunction}
    (hvregs : fn'.vregs = st.fn.vregs) :
    H.address fn' s' (OffsetFold.operand st k r) = H.address st.fn s ((st.fn.insn r.site).slot r.slot) := by
  have hvalue := h.base_value hcount hshaped hpath hrun
  have hindex := (h.site_avoids hcount).2
  have hbase := h.carries.site.2.2
  have hhome := h.home hcount hshaped
  unfold AddrHost.address OffsetFold.operand
  simp only [hhome, h.phys, Bool.false_eq_true, if_false, hbase]
  rw [hagree.read hvregs (h.source_notin hcount), hagree.read hvregs hindex, hvalue, BitVec.ofInt_add]
  ac_rfl

end

/-- The fold keeps how many instructions and which registers there are. -/
theorem applyOffset_sizes (st : Folding) (k : ℕ) (r : ChaseResult) :
    (st.applyOffset k r).fn.insnCount = st.fn.insnCount ∧ (st.applyOffset k r).fn.vregs = st.fn.vregs := by
  have hdrop := drop_edits (st.fn.edit r.site fun i => i.setSlot r.slot (OffsetFold.operand st k r)) (k :: r.chain)
  exact ⟨hdrop.1.trans (edit_insnCount _ _), hdrop.2.1⟩

/-- The function after a fold follows the one before it. -/
theorem OffsetFold.follows (h : OffsetFold st defs k r) (hcount : Counted st defs) (hshaped : st.fn.WellShaped)
    (Ok : List ℕ → ℕ → Prop) :
    Follows H start st.fn (st.applyOffset k r).fn (OffsetFold.dead st k r) Ok := by
  obtain ⟨hlen, hvregs⟩ := applyOffset_sizes st k r
  apply Follows.of_steps hvregs hlen
  · intro j
    rw [h.insn]
    split
    · exact .dropped (h.isPlain (by assumption)).1
    · split
      · rename_i _ heq
        rw [heq]
        exact h.sameShape.sameFlow
      · exact .refl _
  · intro j hnop
    rw [h.insn]
    split
    · rfl
    · split
      · rename_i _ heq
        exact absurd (heq ▸ hnop) h.carries.site.1
      · exact hnop
  -- the chain is gone, the operand reads its base, and anything else reads nothing of the chain
  · intro t pc s s' hpath _ _ hrun _ hagree
    rw [h.insn]
    split
    · rename_i hj
      obtain ⟨hplain, hdead, hreg⟩ := h.isPlain hj
      exact ⟨fun s₁ hs => hagree.drop hplain rfl hdead hreg hs, fun hop => absurd rfl hop⟩
    rename_i hkept
    rw [not_or] at hkept
    split
    · rename_i heq
      subst heq
      have hargs := h.sameShape.sameArgs hagree hvregs (h.site_avoids hcount).1
        (h.address hcount hshaped hpath hrun hagree hvregs)
      exact ⟨fun s₁ hs => h.sameShape.step hagree hvregs hargs hs, fun _ => hargs⟩
    · rename_i hsite
      by_cases hop : (st.fn.insn pc).op = .nop
      · refine ⟨fun s₁ hs => ?_, fun hne => absurd hop hne⟩
        rw [step_nop hop] at hs ⊢
        exact ⟨s', rfl, some.inj hs ▸ hagree⟩
      · have havoids := h.avoids hcount hop hkept.1 hsite hkept.2
        exact ⟨fun s₁ hs => hagree.step hvregs havoids hs, fun _ => havoids.sameArgs hagree hvregs⟩

/-- Which registers are valid depends on the table of registers only. -/
theorem valid_of_vregs {fn fn' : MirFunction} (h : fn'.vregs = fn.vregs) (v : ℤ) : fn'.valid v = fn.valid v := by
  rw [MirFunction.valid, MirFunction.valid, MirFunction.vregCount, MirFunction.vregCount, h]

/-- The operands of an instruction after one of them was replaced. -/
theorem slot_setSlot (i : Inst) (slot slot' : Slot) (o : Operand) :
    (i.setSlot slot o).slot slot' = if slot' = slot then o else i.slot slot' := by
  cases slot <;> cases slot' <;> rfl

theorem readList_dropped (i : Inst) : i.dropped.readList = [] := rfl

theorem writes_dropped (i : Inst) (v : ℤ) : i.dropped.writes v = false := by
  simp [Inst.writes, Inst.dropped]

/-- Replacing an operand that is no register adds no write. -/
theorem writes_setSlot {i : Inst} {slot : Slot} {o : Operand} {v : ℤ} (hkind : o.kind ≠ .vreg)
    (h : (i.setSlot slot o).writes v = true) : i.writes v = true := by
  cases slot with
  | a => exact h
  | dst =>
    simp only [Inst.writes, decide_eq_true_eq] at h
    exact absurd h.2.1 hkind

section

variable (h : OffsetFold st defs k r)
include h

theorem OffsetFold.operand_kind : (OffsetFold.operand st k r).kind ≠ .vreg := by
  rw [h.sameShape.kind']
  decide

/-- What the fold does to the reads of each instruction. -/
theorem OffsetFold.count_le (v : ℤ) (j : ℕ) :
    ((st.applyOffset k r).fn.insn j).readList.count v ≤
      (st.fn.insn j).readList.count v + if j = r.site then if v = (st.fn.insn k).a.vreg then 1 else 0 else 0 := by
  obtain ⟨hop, hmem, hbase⟩ := h.carries.site
  rw [h.insn]
  split
  · rw [readList_dropped]
    exact Nat.zero_le _
  split
  · rename_i heq
    subst heq
    have hcount := count_setSlot hmem h.operand_kind hop v
    have hold : ((st.fn.insn r.site).slot r.slot).vregs = [r.cur, ((st.fn.insn r.site).slot r.slot).index] := by
      rw [Operand.vregs, hmem, hbase]
    have hnew : (OffsetFold.operand st k r).vregs =
        [(st.fn.insn k).a.vreg, ((st.fn.insn r.site).slot r.slot).index] := by
      rw [Operand.vregs, h.sameShape.kind']
      rfl
    rw [hold, hnew] at hcount
    simp only [count_cons, count_nil] at hcount
    by_cases hv : v = (st.fn.insn k).a.vreg
    · rw [if_pos hv]
      split at hcount <;> split at hcount <;> split at hcount <;> omega
    · have hbeq : ((st.fn.insn k).a.vreg == v) = false := beq_eq_false_iff_ne.mpr (Ne.symm hv)
      rw [hbeq] at hcount
      simp only [Bool.false_eq_true, if_false] at hcount
      split at hcount <;> split at hcount <;> omega
  · exact Nat.le_add_right _ _

/-- The fold adds no write, and those of the dropped instructions are gone. -/
theorem OffsetFold.writes {v : ℤ} {j : ℕ} (hw : ((st.applyOffset k r).fn.insn j).writes v = true) :
    (st.fn.insn j).writes v = true ∧ ¬ (j = k ∨ j ∈ r.chain) := by
  rw [h.insn] at hw
  split at hw
  · rw [writes_dropped] at hw
    cases hw
  rename_i hj
  refine ⟨?_, hj⟩
  split at hw
  · rename_i heq
    rw [heq]
    exact writes_setSlot h.operand_kind hw
  · exact hw

/-- Only the address that was added to can be read once more. -/
theorem OffsetFold.readCount_le (v : ℤ) :
    (st.applyOffset k r).fn.readCount v ≤ st.fn.readCount v + if v = (st.fn.insn k).a.vreg then 1 else 0 :=
  Mir.readCount_le (applyOffset_sizes st k r).1 (h.count_le v)

/-- The registers of the fold are out of use after it. -/
theorem OffsetFold.isDead (hcount : Counted st defs) {v : ℤ} (hv : v ∈ OffsetFold.dead st k r) :
    (st.applyOffset k r).fn.Dead v := by
  obtain ⟨hop, hmem, hbase⟩ := h.carries.site
  apply dead_of_insns
  · intro j hread
    rw [h.insn] at hread
    split at hread
    · exact absurd hread not_mem_nil
    rename_i hj
    rw [not_or] at hj
    split at hread
    · -- the operand has lost its one read of the last register
      obtain ⟨havoids, hindex⟩ := h.site_avoids hcount
      have hsource := h.source_notin hcount
      have hpos := count_pos_iff.mpr hread
      have hnew := count_setSlot hmem h.operand_kind hop v
      have hempty := count_setSlot (o := {}) hmem (by decide) hop v
      have hnone : (OffsetFold.operand st k r).vregs.count v = 0 := by
        rw [count_eq_zero, Operand.vregs, h.sameShape.kind']
        show v ∉ [(st.fn.insn k).a.vreg, ((st.fn.insn r.site).slot r.slot).index]
        rw [mem_cons, mem_singleton, not_or]
        exact ⟨fun heq => hsource (heq ▸ hv), fun heq => hindex (heq ▸ hv)⟩
      have hemptied : v ∈ ((st.fn.insn r.site).setSlot r.slot {}).readList := by
        apply count_pos_iff.mp
        omega
      have hempOp : ((st.fn.insn r.site).setSlot r.slot {}).op ≠ .nop := by cases r.slot <;> exact hop
      rw [Inst.readList, if_neg hempOp] at hemptied
      rcases mem_append.mp hemptied with hab | hdst
      · rcases mem_append.mp hab with ha | hb
        · exact havoids.a v ha hv
        · exact havoids.b v hb hv
      · split at hdst
        · exact absurd hdst not_mem_nil
        · rename_i hkind
          by_cases hdstMem : ((st.fn.insn r.site).setSlot r.slot {}).dst.kind = .mem
          · exact havoids.dst (.inl hdstMem) v hdst hv
          · rw [Operand.vregs] at hdst
            revert hdst hkind hdstMem
            cases ((st.fn.insn r.site).setSlot r.slot {}).dst.kind <;> simp
    · rename_i hsite
      have hjop : (st.fn.insn j).op ≠ .nop := by
        intro hnop
        rw [Inst.readList, if_pos hnop] at hread
        exact absurd hread not_mem_nil
      rcases (h.reader hcount hv hread (lt_insnCount_of_op hjop)).2 with ⟨heq, _⟩ | hchain
      · exact hsite heq
      · exact hj.2 hchain
  -- no write is left either: the chain that computed it is gone
  · intro j
    by_contra hw
    obtain ⟨hw', hj⟩ := h.writes (Bool.not_eq_false _ ▸ hw)
    exact hj (h.writer hcount hv hw')

/-- What was out of use before stays so. -/
theorem OffsetFold.dead_mono {v : ℤ} (hv : st.fn.Dead v) : (st.applyOffset k r).fn.Dead v := by
  have hne : v ≠ (st.fn.insn k).a.vreg := by
    rintro rfl
    exact hv.notin_readList k h.source_read
  have hread := h.readCount_le v
  rw [if_neg hne, hv.1] at hread
  have hwrite : (st.applyOffset k r).fn.writeCount v ≤ st.fn.writeCount v :=
    Mir.writeCount_le (applyOffset_sizes st k r).1 fun j hw => (h.writes hw).1
  exact ⟨Nat.le_zero.mp hread, Nat.le_zero.mp (hv.2 ▸ hwrite)⟩

/-- The counted uses are still right after a fold. -/
theorem OffsetFold.counted (hcount : Counted st defs) (hshaped : st.fn.WellShaped) :
    Counted (st.applyOffset k r) defs where
  uses v hv := by
    have hvalid : st.fn.valid v = true := valid_of_vregs (applyOffset_sizes st k r).2 v ▸ hv
    have hread := h.readCount_le v
    show _ ≤ update (update st.uses _ _) _ _ v
    by_cases haddr : v = (st.fn.insn k).dst.vreg
    · rw [(h.isDead hcount (.inl haddr)).1]
      exact Nat.zero_le _
    rw [update_of_ne haddr]
    by_cases hsource : v = (st.fn.insn k).a.vreg
    · rw [hsource, update_self]
      rw [if_pos hsource] at hread
      have huses := hcount.uses v hvalid
      rw [hsource] at hread huses
      omega
    · rw [update_of_ne hsource]
      rw [if_neg hsource] at hread
      exact hread.trans (hcount.uses v hvalid)
  invalid v hv := by
    have hvalid : st.fn.valid v = false := valid_of_vregs (applyOffset_sizes st k r).2 v ▸ hv
    show update (update st.uses _ _) _ _ v = 0
    by_cases haddr : v = (st.fn.insn k).dst.vreg
    · rw [haddr, update_self]
    have hsource : v ≠ (st.fn.insn k).a.vreg := by
      rintro rfl
      rw [hshaped.source k (isImmArith_spec h.add).2.2.2.2.1] at hvalid
      cases hvalid
    rw [update_of_ne haddr, update_of_ne hsource, hcount.invalid v hvalid]
  defs v := (Mir.writeCount_le (applyOffset_sizes st k r).1 fun _ hw => (h.writes hw).1).trans (hcount.defs v)

/-- The function is still of the right shape after a fold. -/
theorem OffsetFold.wellShaped (hcount : Counted st defs) (hshaped : st.fn.WellShaped) :
    (st.applyOffset k r).fn.WellShaped := by
  have hmem := h.sameShape.kind
  have hmem' := h.sameShape.kind'
  refine ⟨fun j hlabel => ?_, fun j ha => ?_, fun j slot hhome => ?_⟩
  · rw [h.insn] at hlabel ⊢
    split at hlabel
    · cases hlabel
    rename_i hj
    rw [if_neg hj]
    split at hlabel
    · rename_i heq
      rw [if_pos heq]
      revert hlabel hmem
      cases r.slot with
      | a => exact fun hmem hlabel => absurd hmem (hshaped.label _ hlabel)
      | dst => exact fun _ hlabel => hshaped.label _ hlabel
    · rename_i hsite
      rw [if_neg hsite]
      exact hshaped.label j hlabel
  · rw [valid_of_vregs (applyOffset_sizes st k r).2]
    rw [h.insn] at ha ⊢
    split at ha
    · rename_i hj
      rw [if_pos hj]
      exact hshaped.source j ha
    rename_i hj
    rw [if_neg hj]
    split at ha
    · rename_i heq
      rw [if_pos heq]
      revert ha
      cases r.slot with
      | a => exact fun ha => absurd (ha.symm.trans hmem') (by decide)
      | dst => exact fun ha => hshaped.source _ ha
    · rename_i hsite
      rw [if_neg hsite]
      exact hshaped.source j ha
  · rw [h.insn] at hhome ⊢
    split at hhome
    · rename_i hj
      rw [if_pos hj]
      exact hshaped.frameHome j slot hhome
    rename_i hj
    rw [if_neg hj]
    split at hhome
    · rename_i heq
      rw [if_pos heq, slot_setSlot]
      rw [slot_setSlot] at hhome
      split at hhome
      · rw [show (OffsetFold.operand st k r).frameHomeValid = _ from h.home hcount hshaped] at hhome
        cases hhome
      · rename_i hslot
        rw [if_neg hslot]
        exact hshaped.frameHome _ slot hhome
    · rename_i hsite
      rw [if_neg hsite]
      exact hshaped.frameHome j slot hhome

end

end Folding

end Mettle.Mir

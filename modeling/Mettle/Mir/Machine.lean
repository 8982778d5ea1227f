import Mettle.Mir.Basic

/-!
# Liveness and definedness as facts about control paths

What the analyses are meant to compute, stated over the control transfers of the encoder and without
any block, fixpoint or set: a register is live where some path reads it before writing it, and written
where some path up to there wrote it.
-/

open List

namespace Mettle.Mir

section

variable (fn : MirFunction)

/-- Some control path from instruction `i` reads `v` before writing it. -/
inductive LiveAt : ℕ → ℤ → Prop
  | read {i : ℕ} {v : ℤ} : v ∈ fn.uses i → LiveAt i v
  | pass {i j : ℕ} {v : ℤ} : j ∈ fn.next i → v ∉ fn.defs i → LiveAt j v → LiveAt i v

/-- Some control path that ends before instruction `i` wrote `v`; the entry writes the parameters. -/
inductive WrittenAt : ℕ → ℤ → Prop
  | entry {v : ℤ} : v ∈ fn.entryDefs → WrittenAt 0 v
  | write {i j : ℕ} {v : ℤ} : j ∈ fn.next i → v ∈ fn.defs i → WrittenAt j v
  | pass {i j : ℕ} {v : ℤ} : j ∈ fn.next i → WrittenAt i v → WrittenAt j v

/-- Some control path from the entry reaches instruction `i`. -/
inductive Reached : ℕ → Prop
  | entry : Reached 0
  | step {i j : ℕ} : Reached i → j ∈ fn.next i → Reached j

/-- Some control path from the entry to instruction `i` wrote `v`. -/
inductive WrittenFromEntry : ℕ → ℤ → Prop
  | entry {v : ℤ} : v ∈ fn.entryDefs → WrittenFromEntry 0 v
  | write {i j : ℕ} {v : ℤ} : Reached fn i → j ∈ fn.next i → v ∈ fn.defs i → WrittenFromEntry j v
  | pass {i j : ℕ} {v : ℤ} : j ∈ fn.next i → WrittenFromEntry i v → WrittenFromEntry j v

variable {fn}

variable {i j : ℕ} {v : ℤ}

/-- Past the last instruction there is only a `MIR_NOP`. -/
theorem MirFunction.insn_of_le (hi : fn.insnCount ≤ i) : fn.insn i = {} := by
  rw [MirFunction.insn, getD_eq_getElem?_getD, List.getElem?_eq_none hi]
  rfl

/-- Control goes to a target, or on to the next instruction. -/
theorem MirFunction.mem_next : j ∈ fn.next i ↔
    some j ∈ fn.targets i ∨ fn.falls i = true ∧ i + 1 < fn.insnCount ∧ j = i + 1 := by
  simp only [MirFunction.next, mem_append, mem_filterMap, id_eq, exists_eq_right]
  apply or_congr_right
  split
  · rename_i h
    simp [h]
  · rename_i h
    simp only [not_mem_nil, false_iff]
    exact fun ⟨h₁, h₂, _⟩ => h ⟨h₁, h₂⟩

/-- There is no control past the last instruction. -/
theorem MirFunction.lt_of_mem_next (hj : j ∈ fn.next i) : i < fn.insnCount := by
  by_contra hi
  have hnop := MirFunction.insn_of_le (Nat.le_of_not_lt hi)
  have hend : ¬ i + 1 < fn.insnCount := by omega
  simp [MirFunction.next, MirFunction.targets, Inst.isCondBranch, hnop, hend] at hj

/-- Control stays inside the function. -/
theorem MirFunction.lt_of_mem_next_right (hj : j ∈ fn.next i) : j < fn.insnCount := by
  have hlabel : ∀ name, fn.labelFind name = some j → j < fn.insnCount := by
    intro name h
    cases name with
    | none => cases h
    | some name => exact (findIdx?_eq_some_iff_getElem.mp h).1
  rw [MirFunction.next, mem_append] at hj
  rcases hj with hj | hj
  · obtain ⟨t, ht, hid⟩ := mem_filterMap.mp hj
    obtain rfl : t = some j := hid
    simp only [MirFunction.targets] at ht
    split at ht
    · exact hlabel _ (mem_singleton.mp ht).symm
    split at ht
    · obtain ⟨name, -, hname⟩ := mem_map.mp ht
      exact hlabel name hname
    · exact absurd ht not_mem_nil
  · split at hj
    · rename_i hfall
      rw [mem_singleton.mp hj]
      exact hfall.2
    · exact absurd hj not_mem_nil

theorem WrittenFromEntry.writtenAt (h : WrittenFromEntry fn i v) : WrittenAt fn i v := by
  induction h with
  | entry hv => exact .entry hv
  | write _ hj hv => exact .write hj hv
  | pass hj _ ih => exact .pass hj ih

/-- Without unreachable code the paths that write are the paths from the entry. -/
theorem writtenAt_iff_fromEntry (hreach : ∀ i < fn.insnCount, Reached fn i) :
    WrittenAt fn i v ↔ WrittenFromEntry fn i v := by
  refine ⟨fun h => ?_, WrittenFromEntry.writtenAt⟩
  induction h with
  | entry hv => exact .entry hv
  | write hj hv => exact .write (hreach _ (MirFunction.lt_of_mem_next hj)) hj hv
  | pass hj _ ih => exact .pass hj ih

end

/-!
## What the machine does to registers

`codegen/binary/mir_machine.c`: the registers an opcode pins, and which opcodes are call barriers,
together with what survives a barrier. A location of an allocation is a register of a class or a frame
slot.
-/

/-- `BINARY_GP_RAX`. -/
def gpRax : ℤ := 0

/-- `BINARY_GP_RCX`. -/
def gpRcx : ℤ := 1

/-- `BINARY_GP_RDX`. -/
def gpRdx : ℤ := 2

/-- `MirOpInfo`: the pinned registers and the flags the allocator and its verifier ask for. -/
structure OpInfo where
  fixedGp : List ℤ := []
  commutative : Bool := false
  coalesceCandidate : Bool := false
  callBarrier : Bool := false
  realCall : Bool := false
  inlineKernel : Bool := false
  pinsRcxWhenShiftIsVariable : Bool := false
  pinsRcxWhenCompareIsUnordered : Bool := false
  clobbersEveryGp : Bool := false
  clobbersListedByKernel : Bool := false
  deriving DecidableEq, Repr

/-- `MIR_OP_INFO`. -/
def Opcode.info : Opcode → OpInfo
  | .mov | .sub | .neg | .not | .fsub | .fdiv => { coalesceCandidate := true }
  | .add | .and | .or | .xor | .imul | .fadd | .fmul | .fxor =>
    { commutative := true, coalesceCandidate := true }
  | .shl | .shr | .sar => { coalesceCandidate := true, pinsRcxWhenShiftIsVariable := true }
  | .cqo | .xorRdx => { fixedGp := [gpRdx] }
  | .idiv | .div | .mulhi => { fixedGp := [gpRax, gpRdx] }
  | .setcc => { fixedGp := [gpRax] }
  | .fsetcc => { fixedGp := [gpRax], pinsRcxWhenCompareIsUnordered := true }
  | .call | .callIndirect | .heapNew | .repMovsb | .repStosb | .syscall =>
    { callBarrier := true, realCall := true }
  | .inlineAsm => { callBarrier := true, clobbersEveryGp := true }
  | .simdSlpMac | .simdFill | .simdAffineMapF32 | .simdAffineMapF64 | .simdSiluF32 | .simdVloop =>
    { callBarrier := true, inlineKernel := true }
  | .irKernel => { callBarrier := true, inlineKernel := true, clobbersListedByKernel := true }
  | _ => {}

/-- `mir_fsetcc_unordered_cc(cc) >= 0`. -/
def fsetccUnordered (cc : ℕ) : Bool := cc = 0x94 ∨ cc = 0x95

namespace Inst

/-- `mir_inst_fixed_gp`. -/
def fixedGp (i : Inst) : List ℤ :=
  i.op.info.fixedGp ++
    (if i.op.info.pinsRcxWhenShiftIsVariable ∧ i.b.kind ≠ .imm then [gpRcx] else []) ++
    (if i.op.info.pinsRcxWhenCompareIsUnordered ∧ fsetccUnordered i.cc then [gpRcx] else [])

/-- `mir_verify_gp_clobbers`, as a test of one register. -/
def gpClobbers (i : Inst) (reg : ℤ) : Bool :=
  reg ∈ i.fixedGp ∨
    (i.dst.kind = .phys ∧ i.dst.rclass = .gp ∧ 0 ≤ i.dst.phys ∧ i.dst.phys < 16 ∧
      reg = i.dst.phys) ∨
    (i.op.info.clobbersListedByKernel ∧ 0 ≤ reg ∧ (i.kernelClobbers.getD 0).testBit reg.toNat) ∨
    (i.op.info.clobbersEveryGp ∧ 0 ≤ reg ∧ reg < 16)

/-- `mir_verify_gp_survives_barrier`; `sysv` is `counts_classes_separately` of the active ABI. -/
def gpSurvivesBarrier (sysv : Bool) (i : Inst) (reg : ℤ) : Bool :=
  if reg = 3 ∨ reg = 5 ∨ reg = 12 ∨ reg = 13 ∨ reg = 14 ∨ reg = 15 then true
  else if reg = 6 ∨ reg = 7 then !sysv
  else if reg = 0 then i.op = .call ∧ i.preservesRax
  else false

/-- `MIR_XMM_POOL`. -/
def xmmPool : List ℤ := [0, 1, 2, 3]

/-- `mir_verify_xmm_survives_barrier`. -/
def xmmSurvivesBarrier (i : Inst) (reg : ℤ) : Bool :=
  i.op = .call ∧ i.preservesXmm ∧ reg ∈ xmmPool

end Inst

/-- Where an allocation keeps a virtual register. -/
inductive Loc where
  | reg (rclass : RegClass) (phys : ℤ)
  | slot (offset : ℤ)
  deriving DecidableEq, Repr

/-- The registers an instruction overwrites besides its own result. -/
def Inst.overwrites (sysv : Bool) (i : Inst) : Loc → Bool
  | .slot _ => false
  | .reg .gp phys => i.op ≠ .nop ∧
    ((0 ≤ phys ∧ phys < 16 ∧ i.gpClobbers phys) ∨
      (i.op.info.callBarrier ∧ ¬ i.gpSurvivesBarrier sysv phys))
  | .reg .xmm phys => i.op ≠ .nop ∧
    ((i.dst.kind = .phys ∧ i.dst.rclass = .xmm ∧ phys = i.dst.phys) ∨
      (i.op.info.callBarrier ∧ ¬ i.xmmSurvivesBarrier phys))
  | .reg .vec phys => i.op ≠ .nop ∧ i.op.info.callBarrier ∧ ¬ i.xmmSurvivesBarrier phys

namespace MirFunction

/-- The table entry of a virtual register. -/
def vreg (fn : MirFunction) (v : ℤ) : Vreg := fn.vregs.getD v.toNat {}

/-- The location of a virtual register. -/
def locOf (fn : MirFunction) (v : ℤ) : Loc :=
  if (fn.vreg v).inRegister then .reg (fn.vreg v).rclass (fn.vreg v).phys
  else .slot (fn.vreg v).spillOffset

end MirFunction

/-!
## Executing the machine IR

A function runs on virtual registers and a machine: memory, physical registers and flags. A register
whose address is taken lives in memory, at its home. Loads and copies are given here; what the other
instructions compute belongs to the host. Which way a branch goes is left open, so the runs take every
control path.
-/

namespace Inst

/-- `mir_is_plain_load`. -/
def isPlainLoad (i : Inst) : Bool := i.op = .mov ∧ i.a.kind = .mem ∧ i.dst.kind = .vreg

/-- The instructions that can write memory, apart from the homes of registers. -/
def writesMemory (i : Inst) : Bool :=
  i.dst.kind = .mem ∨ i.dst.kind = .stackhome ∨ i.op.info.inlineKernel ∨
    i.op ∈ ([.call, .callIndirect, .trap, .storeGlobal, .storeOutarg, .heapNew, .repMovsb, .repStosb, .syscall,
      .inlineAsm] : List Opcode)

end Inst

/-- Machines `M` and values of registers `V`. `load` takes an address, a width, and how the bytes are read;
`exec` gets the values of the registers an instruction reads and returns the value it writes. -/
structure Host (M V : Type) where
  word : V → BitVec 64
  load : M → BitVec 64 → ℕ → Bool → Bool → V
  readPhys : M → ℤ → BitVec 64
  homeAddress : ℤ → BitVec 64
  readHome : M → ℤ → V
  writeHome : M → ℤ → V → M
  exec : M → Inst → List V → Option (V × M)

/-- Machines with the same memory. -/
def Host.SameMemory {M V : Type} (H : Host M V) (m m' : M) : Prop :=
  (∀ address width isUnsigned isFloat, H.load m' address width isUnsigned isFloat =
    H.load m address width isUnsigned isFloat) ∧ ∀ v, H.readHome m' v = H.readHome m v

/-- The other instructions leave memory as it is. -/
structure Host.Lawful {M V : Type} (H : Host M V) : Prop where
  exec : ∀ {m i values x m'}, H.exec m i values = some (x, m') → i.writesMemory = false → H.SameMemory m m'

/-- The registers of a function and the machine. -/
structure State (M V : Type) where
  regs : ℤ → V
  machine : M

variable {M V : Type} (H : Host M V) (fn : MirFunction)

namespace State

/-- The value of a virtual register. -/
def read (s : State M V) (v : ℤ) : V :=
  if (fn.vreg v).addressTaken then H.readHome s.machine v else s.regs v

/-- A write of a virtual register. -/
def write (s : State M V) (v : ℤ) (x : V) : State M V :=
  if (fn.vreg v).addressTaken then { s with machine := H.writeHome s.machine v x }
  else { s with regs := Function.update s.regs v x }

/-- The address of a memory operand. -/
def address (s : State M V) (o : Operand) : BitVec 64 :=
  (if o.frameHomeValid then H.homeAddress o.frameHome
    else if o.physBaseValid then H.readPhys s.machine o.physBase
    else H.word (s.read H fn o.base)) +
  (if o.index = -1 then 0 else H.word (s.read H fn o.index) * BitVec.ofInt 64 o.scale) + BitVec.ofInt 64 o.disp

/-- The value a load gives. -/
def loaded (s : State M V) (i : Inst) : V :=
  H.load s.machine (s.address H fn i.a) i.width i.isUnsigned i.isFloat

/-- What an instruction does to the registers and the machine. -/
def exec (s : State M V) (i : Inst) : Option (State M V) :=
  if i.op = .nop ∨ i.op = .label then some s
  else if i.isPlainLoad then some (s.write H fn i.dst.vreg (s.loaded H fn i))
  else if i.isCopy then some (s.write H fn i.dst.vreg (s.read H fn i.a.vreg))
  else
    (H.exec s.machine i (i.uses.map (s.read H fn))).map fun (x, m) =>
      if i.dst.kind = .vreg then { s with machine := m }.write H fn i.dst.vreg x else { s with machine := m }

end State

/-- The states in which a run arrives at an instruction. -/
inductive Arrives (start : State M V) : ℕ → State M V → Prop
  | entry : Arrives start 0 start
  | step {pc pc' : ℕ} {s s' : State M V} : Arrives start pc s → s.exec H fn (fn.insn pc) = some s' →
    pc' ∈ fn.next pc → Arrives start pc' s'

end Mettle.Mir

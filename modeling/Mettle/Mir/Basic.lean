import Mathlib

/-!
# The machine IR

The instructions of `codegen/binary/mir.h` as the register allocator and its analyses read them:
opcodes, operands, what an instruction reads and writes, and where control goes from it. A virtual
register is an `int`, negative when absent.
-/

namespace Mettle.Mir

/-- `MirRegClass`. -/
inductive RegClass where
  | gp
  | xmm
  | vec
  deriving DecidableEq, Repr

/-- `MirOpcode`. -/
inductive Opcode where
  | nop
  | mov | lea | leaLocal | leaGlobal | leaFunc | leaCstr | leaStrlit | popcnt | heapNew | movzx
  | movsx | loadGlobal | storeGlobal
  | add | sub | and | or | xor | imul | neg | not | shl | shr | sar
  | cqo | xorRdx | idiv | div | mulhi
  | cmp | test | bt | setcc | cmovcc
  | jmp | jcc | cmpbr | jmpTable | label | prefetch | cmov
  | call | callIndirect | repMovsb | repStosb | syscall | storeOutarg | leaOutarg | trap | inlineAsm
  | ret
  | fadd | fsub | fmul | fdiv | fxor | fdup | fexthi | cvtsi2f | cvtf2si | cvtf2f | ucomis | fsetcc
  | fcmpbr | movdToXmm | movdToGp | cvtph2ps | cvtps2ph
  | vadd | vsub | vmul | vdiv | vcvtsi2f | vcvtf2si | vload | vstore | vbroadcast | viota | vhreduce
  | simdSlpMac | simdFill | simdAffineMapF32 | simdAffineMapF64 | simdSiluF32 | simdVloop | irKernel
  deriving DecidableEq, Repr

/-- `MirOperandKind`. -/
inductive OperandKind where
  | none
  | vreg
  | phys
  | imm
  | fimm
  | mem
  | label
  | symbol
  | stackhome
  deriving DecidableEq, Repr

/-- `MirOperand`; `base` and `index` are the registers of a memory operand, `physBase` the machine register
it is based on instead, `frameHome` the register whose home it addresses. -/
structure Operand where
  kind : OperandKind := .none
  vreg : ℤ := -1
  phys : ℤ := -1
  rclass : RegClass := .gp
  imm : ℤ := 0
  base : ℤ := -1
  index : ℤ := -1
  scale : ℤ := 0
  disp : ℤ := 0
  physBaseValid : Bool := false
  physBase : ℤ := 0
  frameHomeValid : Bool := false
  frameHome : ℤ := -1
  sym : Option String := none
  deriving DecidableEq, Repr

/-- `MirInst`. The `aux` pointer is split by its users: the labels of a jump table, the registers
the kernel of a `MIR_IR_KERNEL` clobbers. -/
structure Inst where
  op : Opcode := .nop
  dst : Operand := {}
  a : Operand := {}
  b : Operand := {}
  width : ℕ := 8
  isFloat : Bool := false
  isUnsigned : Bool := false
  cc : ℕ := 0
  table : Option (List (Option String)) := none
  kernelClobbers : Option ℕ := none
  preservesRax : Bool := false
  preservesXmm : Bool := false
  deriving DecidableEq, Repr

/-- `MirVreg`, the outcome of an allocation and the facts the allocator starts from. `hasInterval` says
that `live_start` and `live_end` are set; the interval itself is only read without a control-flow
graph. -/
structure Vreg where
  rclass : RegClass := .gp
  width : ℤ := 8
  assigned : Bool := false
  inRegister : Bool := false
  phys : ℤ := -1
  spillOffset : ℤ := 0
  hasInterval : Bool := false
  entryLive : Bool := false
  crossesCall : Bool := false
  crossesPreservingOnly : Bool := false
  crossesXmmPreservingOnly : Bool := false
  coalesceHint : ℤ := -1
  coalescedInto : ℤ := -1
  addressTaken : Bool := false
  homeBytes : ℤ := 0
  homeGranule : Bool := false
  deriving DecidableEq, Repr

/-- `MirParam`. -/
structure Param where
  vreg : ℤ
  argIndex : ℤ := 0
  isFloat : Bool := false
  sysvStorage : ℤ := -1
  deriving DecidableEq, Repr

/-- `BinaryFunctionContext`, the frame the lowering left. -/
structure FunctionContext where
  rawFrameSize : ℤ := 0
  omitFramePointer : Bool := false
  deriving DecidableEq, Repr

/-- `MirFunction`. `iconsts` and `fconsts` list the registers of the pooled constants. -/
structure MirFunction where
  vregs : List Vreg
  insns : List Inst
  params : List Param := []
  returnsIndirect : Bool := false
  indirectReturnVreg : ℤ := -1
  iconsts : List ℤ := []
  fconsts : List ℤ := []
  hasXmmArgCall : Bool := false
  reserveRbx : Bool := false
  incomingArgSlots : ℕ := 0
  context : Option FunctionContext := none
  preserveSlot : ℤ := 0
  preserveXmmSlot : ℤ := 0
  spillBytes : ℤ := 0

namespace Operand

/-- `mir_op_vreg`. -/
def ofVreg (v : ℤ) : Operand := { kind := .vreg, vreg := v }

/-- `mir_op_imm`. -/
def ofImm (imm : ℤ) : Operand := { kind := .imm, imm }

/-- `mir_cfg_operand_vregs`. -/
def vregs (o : Operand) : List ℤ :=
  match o.kind with
  | .vreg => [o.vreg]
  | .mem => [o.base, o.index]
  | _ => []

end Operand

namespace Inst

/-- `mir_cfg_insn_reads_dst`. -/
def readsDst (i : Inst) : Bool := i.op = .cmov ∨ i.op = .cmovcc

/-- `mir_cfg_insn_uses`. -/
def uses (i : Inst) : List ℤ :=
  if i.op = .nop then []
  else (if i.dst.kind = .mem ∨ i.readsDst then i.dst.vregs else []) ++ i.a.vregs ++ i.b.vregs

/-- `mir_cfg_insn_def`. -/
def defs (i : Inst) : ℤ := if i.op ≠ .nop ∧ i.dst.kind = .vreg then i.dst.vreg else -1

/-- `mir_cfg_is_label`. -/
def isLabel (i : Inst) : Bool := i.op = .label ∧ i.dst.kind = .label ∧ i.dst.sym.isSome

/-- `mir_coalesce_is_copy`. -/
def isCopy (i : Inst) : Bool := i.op = .mov ∧ i.dst.kind = .vreg ∧ i.a.kind = .vreg

/-- A branch with one target label that may also fall through. -/
def isCondBranch (i : Inst) : Bool :=
  i.op = .jcc ∨ i.op = .cmpbr ∨ i.op = .fcmpbr

end Inst

namespace MirFunction

variable (fn : MirFunction)

/-- The instruction at an index, a `MIR_NOP` past the end. -/
def insn (i : ℕ) : Inst := fn.insns.getD i {}

/-- `insn_count`. -/
def insnCount : ℕ := fn.insns.length

/-- `vreg_count`. -/
def vregCount : ℕ := fn.vregs.length

/-- A register number inside the table of virtual registers. -/
def valid (v : ℤ) : Bool := 0 ≤ v ∧ v < fn.vregCount

/-- The registers an instruction reads. -/
def uses (i : ℕ) : Finset ℤ := ((fn.insn i).uses.filter fn.valid).toFinset

/-- The register an instruction writes. -/
def defs (i : ℕ) : Finset ℤ := if fn.valid (fn.insn i).defs then {(fn.insn i).defs} else ∅

/-- `mir_cfg_label_find` over the map of the first label with each name. -/
def labelFind (name : Option String) : Option ℕ :=
  match name with
  | none => none
  | some name => fn.insns.findIdx? fun i => i.isLabel && i.dst.sym == some name

/-- The registers that hold a value when the function is entered. -/
def entryDefs : Finset ℤ :=
  (((fn.params.flatMap fun p => [p.vreg, p.sysvStorage]) ++
    if fn.returnsIndirect then [fn.indirectReturnVreg] else []).filter fn.valid).toFinset

/-- The targets named by an instruction: what the encoder can jump to. -/
def targets (i : ℕ) : List (Option ℕ) :=
  let last := fn.insn i
  if last.op = .jmp ∨ last.isCondBranch ∨ last.op = .bt then [fn.labelFind last.dst.sym]
  else if last.op = .jmpTable then (last.table.getD []).map fn.labelFind
  else []

/-- Control can go on to the next instruction. -/
def falls (i : ℕ) : Bool :=
  let last := fn.insn i
  ¬ (last.op = .jmp ∨ last.op = .jmpTable ∨ last.op = .ret ∨ last.op = .trap)

/-- The instructions control can reach from `i` in one step. -/
def next (i : ℕ) : List ℕ :=
  (fn.targets i).filterMap id ++ if fn.falls i ∧ i + 1 < fn.insnCount then [i + 1] else []

end MirFunction

end Mettle.Mir

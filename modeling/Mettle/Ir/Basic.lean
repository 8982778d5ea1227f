import Mathlib

/-!
# The intermediate representation

Operands, instructions and functions of `ir.h`. An instruction is one record for all opcodes; which
fields it reads depends on the opcode. Value numbers of names (`value_id`), source locations and the
descriptors of the GPU opcodes are left out.
-/

namespace Mettle.Ir

/-- `IROperandKind`. -/
inductive OperandKind where
  | none | temp | symbol | int | float | string | label
  deriving DecidableEq, Repr, Inhabited

/-- `IROperand`; `floatValue` is the bit pattern of the `double`. -/
structure Operand where
  kind : OperandKind := .none
  name : Option String := none
  intValue : BitVec 64 := 0
  floatValue : BitVec 64 := 0
  floatBits : ℕ := 0
  deriving DecidableEq, Repr, Inhabited

/-- `IROpcode`. -/
inductive Opcode where
  | nop | label | jump | branchZero | branchEq | declareLocal | addressSpaceAlloc | barrier
  | asyncCopy | asyncCommit | asyncWait | tensorTransfer | tensorMma | tensorMatmul
  | tensorEpilogue | tensorCommit | assign | addressOf | load | store | binary | unary | rotateAdd
  | call | callIndirect | gpuLaunch | new | return | inlineAsm | cast | countWordStarts
  | memcpyInline | simdSumI32 | simdSumU8 | simdByteMap | simdFill | simdCopy | simdMatmulN32
  | simdInsertionSortI32 | simdDotI32 | simdDotI8 | simdSlpMacI32 | simdSlpMacI8 | simdScaleI32
  | simdClampI32 | simdReverseCopyI32 | lowerBoundI32 | prefixSumI32 | simdMinmaxI32 | simdSumF64
  | simdSumF32 | simdDotF64 | simdDotF32 | simdAffineMapF64 | simdAffineMapF32 | simdExpF32
  | simdSiluF32 | simdI2fReduceF64 | simdVloopF64 | simdVloopI32 | simdFind | simdOuterLaneF64
  | simdLcgU32 | prefetch | select | safetyCheck | phi
  deriving DecidableEq, Repr, Inhabited

/-- The kinds of `MtlcType` that the meaning of an instruction depends on; `other` stands for the rest. -/
inductive TypeKind where
  | int8 | int16 | int32 | int64 | uint8 | uint16 | uint32 | uint64 | bool
  | float16 | bfloat16 | float32 | float64
  | string | pointer | functionPointer | enum | struct | array | taggedEnum | other
  deriving DecidableEq, Repr, Inhabited

/-- `MtlcType`, as far as instructions use it. -/
structure MtlcType where
  kind : TypeKind := .other
  size : ℕ := 0
  deriving DecidableEq, Repr, Inhabited

/-- `IRInstruction`. -/
structure Inst where
  op : Opcode := .nop
  dest : Operand := {}
  lhs : Operand := {}
  rhs : Operand := {}
  text : Option String := none
  arguments : List Operand := []
  isFloat : Bool := false
  floatBits : ℕ := 0
  isUnsigned : Bool := false
  valueType : Option MtlcType := none
  aliasClass : ℕ := 0
  deriving DecidableEq, Repr, Inhabited

/-- `IRFunction`. -/
structure Function where
  name : String := ""
  parameterNames : List String := []
  parameterTypes : List (Option String) := []
  returnTypeName : Option String := none
  instructions : List Inst := []
  deriving DecidableEq, Repr, Inhabited

/-- The instruction at an index, `IR_OP_NOP` beyond the end. -/
def Function.insn (fn : Function) (i : ℕ) : Inst := fn.instructions.getD i {}

namespace Operand

/-- `ir_operand_is_temp`. -/
def isTemp (o : Operand) : Bool := o.kind = .temp ∧ o.name.isSome

/-- `ir_operand_is_symbol`. -/
def isSymbol (o : Operand) : Bool := o.kind = .symbol ∧ o.name.isSome

/-- The variable an operand names. -/
def var (o : Operand) : Option String :=
  if o.kind = .temp ∨ o.kind = .symbol then o.name else none

/-- The temporary of a name. -/
def ofTemp (name : String) : Operand := { kind := .temp, name := some name }

/-- The symbol of a name. -/
def ofSymbol (name : String) : Operand := { kind := .symbol, name := some name }

/-- An integer literal. -/
def ofInt (value : BitVec 64) : Operand := { kind := .int, intValue := value }

end Operand

/-- A NaN. -/
def doubleIsNan (bits : BitVec 64) : Bool :=
  (bits.extractLsb' 52 11 = 2047#11) ∧ bits.extractLsb' 0 52 ≠ 0

/-- A positive or negative zero. -/
def doubleIsZero (bits : BitVec 64) : Bool := bits.extractLsb' 0 63 = 0

/-- `==` of two doubles. -/
def doubleEq (a b : BitVec 64) : Bool :=
  ¬ doubleIsNan a ∧ ¬ doubleIsNan b ∧ (a = b ∨ (doubleIsZero a ∧ doubleIsZero b))

/-- `ir_operand_equals`. -/
def Operand.equals (a b : Operand) : Bool :=
  decide (a.kind = b.kind) &&
    match a.kind with
    | .none => true
    | .int => a.intValue = b.intValue
    | .float => doubleEq a.floatValue b.floatValue ∧ (a.floatBits = 32 ↔ b.floatBits = 32)
    | .string | .temp | .symbol | .label => a.name.isSome ∧ a.name = b.name

namespace Inst

/-- `ir_instruction_writes_temp`. -/
def writesTemp (i : Inst) : Bool :=
  i.dest.isTemp ∧
    i.op ∈ ([.assign, .addressOf, .load, .binary, .unary, .rotateAdd, .call, .callIndirect, .new, .cast,
      .select, .simdLcgU32] : List Opcode)

/-- `IR_WRITES_SYMBOL`. -/
def opWritesSymbol : Opcode → Bool
  | .assign | .addressOf | .load | .binary | .unary | .rotateAdd | .call | .callIndirect | .new
  | .cast | .countWordStarts | .memcpyInline | .simdFill | .simdCopy | .simdSumI32 | .simdSumU8
  | .simdMatmulN32 | .simdInsertionSortI32 | .simdDotI32 | .simdDotI8 | .simdSlpMacI32
  | .simdSlpMacI8 | .simdScaleI32 | .simdClampI32 | .simdReverseCopyI32 | .lowerBoundI32
  | .prefixSumI32 | .simdMinmaxI32 | .simdSumF64 | .simdSumF32 | .simdDotF64 | .simdDotF32
  | .simdAffineMapF64 | .simdAffineMapF32 | .simdExpF32 | .simdSiluF32 | .simdI2fReduceF64
  | .simdVloopF64 | .simdVloopI32 | .simdFind | .simdOuterLaneF64 | .select | .simdLcgU32
  | .addressSpaceAlloc | .phi => true
  | _ => false

/-- `ir_instruction_writes_symbol`. -/
def writesSymbol (i : Inst) : Bool := i.dest.isSymbol ∧ opWritesSymbol i.op

end Inst

end Mettle.Ir

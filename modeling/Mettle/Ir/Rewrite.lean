import Mettle.Ir.Coalesce
import Mettle.Ir.Cse

/-!
# Algebraic identities and chains of constants

The tables of `ir_optimize_rewrite.c` and what they are applied to:
`ir_rewrite_apply_binary_identities` looks at one instruction, `ir_reassociate_constants_pass` merges an
operation with a constant and the operation that produced its other operand.
-/

namespace Mettle.Ir

/-! ## Identities -/

/-- `IRRwPat`. -/
inductive RwPat where
  | var
  | int (value : BitVec 64)
  | intNonzero
  | pow2
  | same
  | nonneg
  deriving DecidableEq, Repr

/-- `IRRwAct`. -/
inductive RwAct where
  | keepVar
  | const (value : BitVec 64)
  | shlVar
  | shrVar
  | andVar
  deriving DecidableEq, Repr

/-- `IRBinaryIdentity`. -/
structure BinaryIdentity where
  op : String
  a : RwPat
  b : RwPat
  commutative : Bool
  act : RwAct
  deriving DecidableEq, Repr

/-- `g_binary_identities`. -/
def binaryIdentities : List BinaryIdentity := [
  ⟨"-", .var, .same, false, .const 0⟩,
  ⟨"^", .var, .same, false, .const 0⟩,
  ⟨"|", .var, .same, false, .keepVar⟩,
  ⟨"&", .var, .same, false, .keepVar⟩,
  ⟨"==", .var, .same, false, .const 1⟩,
  ⟨"<=", .var, .same, false, .const 1⟩,
  ⟨">=", .var, .same, false, .const 1⟩,
  ⟨"!=", .var, .same, false, .const 0⟩,
  ⟨"<", .var, .same, false, .const 0⟩,
  ⟨">", .var, .same, false, .const 0⟩,
  ⟨"+", .var, .int 0, true, .keepVar⟩,
  ⟨"-", .var, .int 0, false, .keepVar⟩,
  ⟨"*", .var, .pow2, true, .shlVar⟩,
  ⟨"*", .var, .int 0, true, .const 0⟩,
  ⟨"*", .var, .int 1, true, .keepVar⟩,
  ⟨"/", .var, .int 1, false, .keepVar⟩,
  ⟨"%", .var, .int 1, false, .const 0⟩,
  ⟨"/", .nonneg, .pow2, false, .shrVar⟩,
  ⟨"%", .nonneg, .pow2, false, .andVar⟩,
  ⟨"&", .var, .int 0, true, .const 0⟩,
  ⟨"&", .var, .int (-1), true, .keepVar⟩,
  ⟨"|", .var, .int 0, true, .keepVar⟩,
  ⟨"|", .var, .int (-1), true, .const (-1)⟩,
  ⟨"^", .var, .int 0, true, .keepVar⟩,
  ⟨"<<", .var, .int 0, false, .keepVar⟩,
  ⟨">>", .var, .int 0, false, .keepVar⟩,
  ⟨"<<", .int 0, .var, false, .const 0⟩,
  ⟨">>", .int 0, .var, false, .const 0⟩,
  ⟨"&&", .var, .int 0, true, .const 0⟩,
  ⟨"||", .var, .intNonzero, true, .const 1⟩]

/-- `rw_pow2_shift` and `vr_pow2_shift`: how often the loop halves the word until it is one. -/
def pow2Shift (value : BitVec 64) : Option ℕ :=
  if value.sle 0 ∨ value &&& (value - 1) ≠ 0 then none else some value.toNat.log2

/-- `rw_match`; `nonneg` is the oracle at the instruction. -/
def rwMatch (nonneg : Operand → Bool) (pat : RwPat) (operand other : Operand) : Bool :=
  match pat with
  | .var => true
  | .nonneg => nonneg operand
  | .int value => operand.kind = .int ∧ operand.intValue = value
  | .intNonzero => operand.kind = .int ∧ operand.intValue ≠ 0
  | .pow2 => operand.kind = .int ∧ (pow2Shift operand.intValue).any (1 ≤ ·)
  | .same => operand.equals other

/-- `rw_to_binary` and `rw_set_binary`. -/
def Inst.rwToBinary (i : Inst) (base : Operand) (text : String) (value : BitVec 64) : Inst :=
  { i with
    op := .binary
    lhs := base
    rhs := .ofInt value
    text := some text
    arguments := []
    isFloat := false }

/-- `rw_apply`. -/
def rwApply (i : Inst) (act : RwAct) (swapped : Bool) : Inst :=
  let var := if swapped then i.rhs else i.lhs
  let bop := if swapped then i.lhs else i.rhs
  match act with
  | .keepVar => i.rewriteToAssignOperand var
  | .const value => i.rewriteToAssignOperand (.ofInt value)
  | .shlVar =>
    match pow2Shift bop.intValue with
    | none => i
    | some shift => i.rwToBinary var "<<" (BitVec.ofNat 64 shift)
  | .shrVar =>
    match pow2Shift bop.intValue with
    | none => i
    | some shift => i.rwToBinary var ">>" (BitVec.ofNat 64 shift)
  | .andVar => if bop.intValue.sle 0 then i else i.rwToBinary var "&" (bop.intValue - 1)

/-- One rule of the table, as it stands or with the operands exchanged. -/
def BinaryIdentity.apply (rule : BinaryIdentity) (nonneg : Operand → Bool) (i : Inst) : Option Inst :=
  if i.text ≠ some rule.op then none
  else if rwMatch nonneg rule.a i.lhs i.rhs ∧ rwMatch nonneg rule.b i.rhs i.lhs then
    some (rwApply i rule.act false)
  else if rule.commutative ∧ rwMatch nonneg rule.a i.rhs i.lhs ∧ rwMatch nonneg rule.b i.lhs i.rhs then
    some (rwApply i rule.act true)
  else none

/-- `ir_rewrite_apply_binary_identities`. -/
def Inst.applyBinaryIdentities (nonneg : Operand → Bool) (i : Inst) : Inst :=
  if i.op ≠ .binary ∨ i.isFloat ∨ i.text = none then i
  else (binaryIdentities.findSome? fun rule => rule.apply nonneg i).getD i

/-! ## Chains of constants -/

/-- `IRRwCombineKind`. -/
inductive RwCombine where
  | add | mul | and | or | xor | shift
  deriving DecidableEq, Repr

/-- `IRConstChainRule`. -/
structure ConstChainRule where
  useOp : String
  producerOp : String
  resultOp : String
  combine : RwCombine
  producerConstEither : Bool
  useConstEither : Bool
  producerSign : BitVec 64
  useSign : BitVec 64
  deriving DecidableEq, Repr

/-- `g_const_chains`. -/
def constChains : List ConstChainRule := [
  ⟨"+", "+", "+", .add, true, true, 1, 1⟩,
  ⟨"+", "-", "+", .add, false, true, -1, 1⟩,
  ⟨"-", "+", "+", .add, true, false, 1, -1⟩,
  ⟨"-", "-", "+", .add, false, false, -1, -1⟩,
  ⟨"*", "*", "*", .mul, true, true, 0, 0⟩,
  ⟨"&", "&", "&", .and, true, true, 0, 0⟩,
  ⟨"|", "|", "|", .or, true, true, 0, 0⟩,
  ⟨"^", "^", "^", .xor, true, true, 0, 0⟩,
  ⟨"<<", "<<", "<<", .shift, false, false, 0, 0⟩,
  ⟨">>", ">>", ">>", .shift, false, false, 0, 0⟩]

/-- `rw_split_var_const`. -/
def Inst.rwSplitVarConst (i : Inst) (op : String) (constEither : Bool) : Option (Operand × BitVec 64) :=
  if i.op ≠ .binary ∨ i.isFloat ∨ i.text ≠ some op then none
  else if i.rhs.kind = .int ∧ i.lhs.kind ≠ .int then some (i.lhs, i.rhs.intValue)
  else if constEither ∧ i.lhs.kind = .int ∧ i.rhs.kind ≠ .int then some (i.rhs, i.lhs.intValue)
  else none

/-- `rw_split_use`. -/
def Inst.rwSplitUse (i : Inst) (constEither : Bool) : Option (String × BitVec 64) :=
  if i.lhs.isTemp ∧ i.rhs.kind = .int then i.lhs.name.map (·, i.rhs.intValue)
  else if constEither ∧ i.rhs.isTemp ∧ i.lhs.kind = .int then i.rhs.name.map (·, i.lhs.intValue)
  else none

/-- `rw_binary_is_unsigned`. -/
def Inst.rwBinaryIsUnsigned (i : Inst) : Bool :=
  i.isUnsigned ||
    i.valueType.any fun t => t.kind ∈ ([.uint8, .uint16, .uint32, .uint64] : List TypeKind)

/-- `rw_combine_constants`; the sum of two shift counts wraps around. -/
def ConstChainRule.combineConstants (rule : ConstChainRule) (cp cu : BitVec 64) : Option (BitVec 64) :=
  match rule.combine with
  | .add => some (rule.producerSign * cp + rule.useSign * cu)
  | .mul => some (cp * cu)
  | .and => some (cp &&& cu)
  | .or => some (cp ||| cu)
  | .xor => some (cp ^^^ cu)
  | .shift => if cp.slt 0 ∨ cu.slt 0 ∨ (32 : BitVec 64).sle (cp + cu) then none else some (cp + cu)

namespace Function

variable (fn : Function)

/-- `rw_find_block_producer`; the loop is that of `ir_find_temp_producer_index_in_current_block`. -/
def rwFindBlockProducer (before : ℕ) (name : String) : Option ℕ := fn.findTempProducer name before

/-- An instruction that `rw_var_unchanged_between` takes for a change of the operand. -/
def rwChanges (x : Operand) (i : Inst) : Bool :=
  (i.writesDestination ∧ i.dest.name.isSome ∧ i.dest.kind = x.kind ∧ i.dest.name = x.name) ∨
    (x.kind = .symbol ∧ i.op ∈ ([.call, .callIndirect, .store, .inlineAsm] : List Opcode))

/-- `rw_var_unchanged_between`. -/
def rwVarUnchangedBetween (producer use : ℕ) (x : Operand) : Bool :=
  (fn.slice (producer + 1) use).all fun i => i.op = .nop ∨ ¬ rwChanges x i

/-- What a rule of `g_const_chains` makes of an instruction: `x op value` for the operand `x` of the
producer. -/
structure ChainSite where
  producer : ℕ
  temp : String
  x : Operand
  op : String
  value : BitVec 64
  deriving DecidableEq, Repr

/-- `rw_try_chain_rule`, up to the rewrite. -/
def tryChainRule (use : ℕ) (rule : ConstChainRule) : Option ChainSite := do
  let i := fn.insn use
  guard (i.text = some rule.useOp)
  let (temp, cu) ← i.rwSplitUse rule.useConstEither
  let producer ← fn.rwFindBlockProducer use temp
  let p := fn.insn producer
  let (x, cp) ← p.rwSplitVarConst rule.producerOp rule.producerConstEither
  guard (rule.resultOp = ">>" → p.rwBinaryIsUnsigned = i.rwBinaryIsUnsigned)
  let value ← rule.combineConstants cp cu
  guard (x.name.isSome)
  guard (¬ (p.dest.kind = x.kind ∧ p.dest.name = x.name))
  guard (fn.rwVarUnchangedBetween producer use x)
  some { producer, temp, x, op := rule.resultOp, value }

/-- The first rule that applies to an instruction. -/
def chainSite (use : ℕ) : Option ChainSite :=
  let i := fn.insn use
  if i.op ≠ .binary ∨ i.isFloat then none else constChains.findSome? (fn.tryChainRule use)

/-- One round of the loop of `ir_reassociate_constants_pass`. -/
def reassociateAt (use : ℕ) : Function :=
  match fn.chainSite use with
  | none => fn
  | some site => fn.setInsn use ((fn.insn use).rwToBinary site.x site.op site.value)

/-- The loop up to an instruction. -/
def reassociateUpTo (n : ℕ) : Function := (List.range n).foldl reassociateAt fn

/-- `ir_reassociate_constants_pass`. -/
def reassociateConstants : Function := fn.reassociateUpTo fn.instructions.length

end Function

end Mettle.Ir

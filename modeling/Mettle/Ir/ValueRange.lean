import Mettle.Ir.Rewrite

/-!
# Rewrites from value ranges

The rewrites of `ir_optimize_value_range.c`. The intervals come from an oracle, `ir_value_range_of` at an
instruction: an operand is mapped to the interval of its signed values. The pass at the end uses no
interval: it replaces the remainder by a power of two where only its zero test is used.
-/

namespace Mettle.Ir

/-- `IRIntRange`. -/
structure IntRange where
  lo : ℤ
  hi : ℤ
  lo_ge : -2 ^ 63 ≤ lo := by norm_num
  hi_le : hi ≤ 2 ^ 63 - 1 := by norm_num
  deriving DecidableEq, Repr

/-- `vr_full`. -/
def IntRange.full : IntRange := { lo := -2 ^ 63, hi := 2 ^ 63 - 1 }

/-- `ir_instruction_make_jump`. -/
def Inst.makeJump (i : Inst) : Inst :=
  { i with op := .jump, dest := {}, lhs := {}, rhs := {}, arguments := [], isFloat := false }

/-- `vr_cover_mask`. -/
def vrCoverMask (hi : ℤ) : BitVec 64 :=
  let m := BitVec.ofInt 64 hi
  let m := m ||| m >>> 1
  let m := m ||| m >>> 2
  let m := m ||| m >>> 4
  let m := m ||| m >>> 8
  let m := m ||| m >>> 16
  m ||| m >>> 32

/-- The outcome of `vr_try_fold_comparison`. -/
def vrFoldComparison (op : String) (a b : IntRange) : Option Bool :=
  if a.lo < 0 ∨ b.lo < 0 then none
  else if op = "<" then if a.hi < b.lo then some true else if b.hi ≤ a.lo then some false else none
  else if op = ">=" then if a.hi < b.lo then some false else if b.hi ≤ a.lo then some true else none
  else if op = ">" then if b.hi < a.lo then some true else if a.hi ≤ b.lo then some false else none
  else if op = "<=" then if b.hi < a.lo then some false else if a.hi ≤ b.lo then some true else none
  else if op = "==" then if a.hi < b.lo ∨ b.hi < a.lo then some false else none
  else if op = "!=" then if a.hi < b.lo ∨ b.hi < a.lo then some true else none
  else none

section Simplify

variable (range : Operand → IntRange)

/-- `vr_try_resolve_branch`. -/
def Inst.vrTryResolveBranch (i : Inst) : Inst :=
  if i.op = .branchZero then
    if i.lhs.kind = .int then i
    else
      let a := range i.lhs
      if 0 < a.lo ∨ a.hi < 0 then i.makeNop
      else if a.lo = 0 ∧ a.hi = 0 then i.makeJump
      else i
  else if i.lhs.kind = .int ∧ i.rhs.kind = .int then i
  else
    let a := range i.lhs
    let b := range i.rhs
    if a.hi < b.lo ∨ b.hi < a.lo then i.makeNop else i

/-- The division and the remainder of `ir_value_range_simplify`. -/
def Inst.vrSimplifyDivide (i : Inst) (isDiv : Bool) : Inst :=
  if i.rhs.kind ≠ .int ∨ i.rhs.intValue.sle 0 then i
  else
    let a := range i.lhs
    let divisor := i.rhs.intValue
    if a.lo < 0 then i
    else if a.hi < divisor.toInt then
      i.rewriteToAssignOperand (if isDiv then .ofInt 0 else i.lhs)
    else
      match pow2Shift divisor with
      | none => i
      | some shift =>
        { i with
          text := some (if isDiv then ">>" else "&")
          rhs := .ofInt (if isDiv then BitVec.ofNat 64 shift else divisor - 1) }

/-- The mask of `ir_value_range_simplify`, for the value and the mask of an instruction. -/
def Inst.vrSimplifyMask (i : Inst) (value : Operand) (mask : BitVec 64) : Inst :=
  if mask.slt 0 then i
  else
    let a := range value
    if a.lo < 0 then i
    else
      let cover := vrCoverMask a.hi
      if cover &&& mask = cover then i.rewriteToAssignOperand value
      else if cover &&& mask = 0 then i.rewriteToAssignOperand (.ofInt 0)
      else i

/-- `ir_value_range_simplify`. -/
def Inst.valueRangeSimplify (i : Inst) : Inst :=
  if i.op = .branchZero ∨ i.op = .branchEq then i.vrTryResolveBranch range
  else if i.op ≠ .binary ∨ i.isFloat then i
  else
    match i.text with
    | none => i
    | some op =>
      if op = "/" ∨ op = "%" then i.vrSimplifyDivide range (op = "/")
      else if op = "&" then
        if i.rhs.kind = .int ∧ i.lhs.kind ≠ .int then i.vrSimplifyMask range i.lhs i.rhs.intValue
        else if i.lhs.kind = .int ∧ i.rhs.kind ≠ .int then i.vrSimplifyMask range i.rhs i.lhs.intValue
        else i
      else if op = ">>" ∧ i.rhs.kind = .int ∧ 0 < i.rhs.intValue.toInt ∧ i.rhs.intValue.toInt < 64 then
        if 0 ≤ (range i.lhs).lo ∧ (range i.lhs).hi >>> i.rhs.intValue.toNat = 0 then
          i.rewriteToAssignOperand (.ofInt 0)
        else i
      else if op ∈ ["==", "!=", "<", "<=", ">", ">="] then
        if i.lhs.kind = .int ∧ i.rhs.kind = .int then i
        else
          match vrFoldComparison op (range i.lhs) (range i.rhs) with
          | none => i
          | some result => i.rewriteToAssignOperand (.ofInt (if result then 1 else 0))
      else i

/-! ## Casts -/

/-- `ir_int_type_name_info`, in bits. -/
def intTypeNameInfo (name : String) : Option (ℕ × Bool) :=
  (builtinIntegerTypeInfo name).map fun (size, isUnsigned) => (8 * size, isUnsigned)

/-- `vr_oracle_bounds_fit`. -/
def vrOracleBoundsFit (lo hi : ℤ) (bits : ℕ) (isUnsigned : Bool) : Bool :=
  if bits = 0 ∨ 64 ≤ bits then false
  else if isUnsigned then 0 ≤ lo ∧ hi ≤ 2 ^ bits - 1
  else -2 ^ (bits - 1) ≤ lo ∧ hi ≤ 2 ^ (bits - 1) - 1

/-- `vr_cast_is_identity`. -/
def Inst.vrCastIsIdentity (i : Inst) : Bool :=
  i.op = .cast ∧ i.isFloat = false ∧ i.dest.floatBits = 0 ∧ i.lhs.floatBits = 0 ∧
    (i.lhs.kind = .temp ∨ i.lhs.kind = .symbol) ∧
    (i.text.bind intTypeNameInfo).any fun (bits, isUnsigned) =>
      vrOracleBoundsFit (range i.lhs).lo (range i.lhs).hi bits isUnsigned

/-- One instruction of `ir_drop_redundant_int_casts_pass`. -/
def Inst.dropRedundantIntCast (i : Inst) : Inst :=
  if i.vrCastIsIdentity range then i.rewriteToAssignOperand i.lhs else i

/-- One round of the loop of `ir_drop_redundant_int_casts_pass`; the oracle answers for the function as it
is by then. -/
def Function.castAt (oracle : Function → ℕ → Operand → IntRange) (fn : Function) (index : ℕ) : Function :=
  fn.setInsn index ((fn.insn index).dropRedundantIntCast (oracle fn index))

/-- The function after some rounds; `ir_drop_redundant_int_casts_pass` makes one for each instruction. -/
def Function.castRounds (oracle : Function → ℕ → Operand → IntRange) (fn : Function) : ℕ → Function
  | 0 => fn
  | k + 1 => (fn.castRounds oracle k).castAt oracle k

end Simplify

/-! ## Zero tests of remainders -/

/-- `vr_zero_test_operand`: the temporary an instruction compares with zero. -/
def Inst.vrZeroTestOperand (i : Inst) : Option String :=
  if i.op = .branchZero ∧ i.lhs.kind = .temp ∧ i.lhs.name.isSome then i.lhs.name
  else if i.op ≠ .binary ∨ i.isFloat ∨ ¬ (i.text = some "==" ∨ i.text = some "!=") then none
  else if i.lhs.isTemp ∧ i.rhs.kind = .int ∧ i.rhs.intValue = 0 then i.lhs.name
  else if i.rhs.isTemp ∧ i.lhs.kind = .int ∧ i.lhs.intValue = 0 then i.rhs.name
  else none

/-- The remainder becomes a mask. -/
def Inst.toMask (i : Inst) (shift : ℕ) : Inst :=
  { i with text := some "&", rhs := { i.rhs with intValue := (1 <<< shift) - 1 } }

/-- `VR_MAX_SCAN`. -/
def vrMaxScan : ℕ := 192

namespace Function

/-- `vr_find_block_writer` for a temporary, after `scanned` instructions. -/
def vrFindBlockWriter (fn : Function) (t : String) (scanned : ℕ) : ℕ → Option ℕ
  | 0 => none
  | k + 1 =>
    if vrMaxScan ≤ scanned then none
    else if (fn.insn k).op = .nop then fn.vrFindBlockWriter t scanned k
    else if (fn.insn k).op = .label then none
    else if (fn.insn k).dest.kind = .temp ∧ (fn.insn k).dest.name = some t ∧ (fn.insn k).writesDestination then
      some k
    else fn.vrFindBlockWriter t (scanned + 1) k

/-- The remainder that the zero test at an index makes a mask, and the exponent of its divisor. -/
def maskSite (uses : String → ℕ) (fn : Function) (index : ℕ) : Option (ℕ × ℕ) := do
  let t ← (fn.insn index).vrZeroTestOperand
  guard (uses t = 1)
  let producer ← fn.vrFindBlockWriter t 0 index
  let p := fn.insn producer
  guard (p.op = .binary ∧ p.isFloat = false ∧ p.text = some "%" ∧ p.rhs.kind = .int)
  let shift ← pow2Shift p.rhs.intValue
  guard (1 ≤ shift ∧ shift ≤ 62)
  some (producer, shift)

/-- One round of the loop of `ir_remainder_zero_test_to_mask_pass`. -/
def maskAt (uses : String → ℕ) (fn : Function) (index : ℕ) : Function :=
  match fn.maskSite uses index with
  | none => fn
  | some (producer, shift) => fn.setInsn producer ((fn.insn producer).toMask shift)

/-- The function after some rounds; the uses are counted before the first one. -/
def maskRounds (fn : Function) : ℕ → Function
  | 0 => fn
  | k + 1 => (fn.maskRounds k).maskAt fn.tempUseCount k

/-- `ir_remainder_zero_test_to_mask_pass`. -/
def remainderZeroTestToMask (fn : Function) : Function := fn.maskRounds fn.instructions.length

end Function

end Mettle.Ir

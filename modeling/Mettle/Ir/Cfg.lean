import Mettle.Ir.Machine

/-!
# Basic blocks

The control-flow graph of `ir_function_rebuild_cfg`: a block starts at the first instruction, at a label
and after a jump, a return or a branch. The hash index over the labels finds the first block of a name.
-/

namespace Mettle.Ir

/-- `ir_instruction_is_terminator`. -/
def Inst.isTerminator (i : Inst) : Bool := i.op = .jump ∨ i.op = .return

/-- `ir_instruction_is_branch`. -/
def Inst.isBranch (i : Inst) : Bool := i.op = .branchZero ∨ i.op = .branchEq

/-- `IRBasicBlock`. -/
structure BasicBlock where
  firstInstruction : ℕ
  instructionCount : ℕ
  label : Option String := none
  successors : List ℕ := []
  predecessors : List ℕ := []
  deriving DecidableEq, Repr, Inhabited

namespace Function

variable (fn : Function)

/-- `block_starts`. -/
def startsBlock (i : ℕ) : Bool :=
  i = 0 ∨ (fn.insn i).op = .label ∨ (fn.insn (i - 1)).isTerminator ∨ (fn.insn (i - 1)).isBranch

/-- The first instructions of the blocks. -/
def blockStarts : List ℕ := (List.range fn.instructions.length).filter fn.startsBlock

/-- The first instruction of a block and the one after its last. -/
def blockRange (b : ℕ) : ℕ × ℕ :=
  (fn.blockStarts.getD b fn.instructions.length,
    fn.blockStarts.getD (b + 1) fn.instructions.length)

/-- The instructions of a block. -/
def blockInstructions (b : ℕ) : List Inst :=
  (fn.instructions.take (fn.blockRange b).2).drop (fn.blockRange b).1

/-- The label a block starts with. -/
def blockLabel (b : ℕ) : Option String :=
  (fn.blockInstructions b).head?.bind fun i => if i.op = .label then i.text else none

/-- `ir_cfg_find_label_block`. -/
def findLabelBlock (label : Option String) : Option ℕ :=
  label.bind fun label =>
    (List.range fn.blockStarts.length).find? fun b => fn.blockLabel b = some label

/-- The edges `ir_function_rebuild_cfg` appends from a block, each once. -/
def blockSuccessors (b : ℕ) : List ℕ :=
  let next := if b + 1 < fn.blockStarts.length then [b + 1] else []
  match ((fn.blockInstructions b).filter fun i => i.op ≠ .nop).getLast? with
  | none => next
  | some last =>
    let target := (fn.findLabelBlock last.text).toList
    if last.op = .jump then target
    else if last.isBranch then (target ++ next).dedup
    else if last.op = .return then []
    else next

/-- The blocks with an edge to a block, in order. -/
def blockPredecessors (b : ℕ) : List ℕ :=
  (List.range fn.blockStarts.length).filter fun p => b ∈ fn.blockSuccessors p

/-- `ir_function_blocks`. -/
def blocks : List BasicBlock :=
  (List.range fn.blockStarts.length).map fun b =>
    { firstInstruction := (fn.blockRange b).1
      instructionCount := (fn.blockRange b).2 - (fn.blockRange b).1
      label := fn.blockLabel b
      successors := fn.blockSuccessors b
      predecessors := fn.blockPredecessors b }

end Function

end Mettle.Ir

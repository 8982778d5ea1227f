import Mettle.Ir.Cfg
import Mettle.Lib.Probe

/-!
# Building the control-flow graph

`ir_function_rebuild_cfg` of `ir.c` as it runs: the flags of the block starts, the loop that cuts the
blocks, the hash index over their labels and the edges appended one by one. `hash` is
`mettle_fnv1a_hash`. A `none` result means that a probe of the label index would not end or that an edge
has no block.
-/

namespace Mettle.Ir

open Mettle.Lib (probe)

/-- `IRLabelBlock`. -/
structure LabelBlock where
  label : String
  blockIndex : ℕ
  deriving DecidableEq, Repr, Inhabited

namespace Cfg

variable (hash : String → ℕ)

/-! ## The label index -/

/-- The doubling of `capacity` in `ir_cfg_label_index_build`. -/
def labelCapacity (labelCount : ℕ) : ℕ → ℕ → ℕ
  | 0, capacity => capacity
  | fuel + 1, capacity =>
    if capacity < labelCount * 2 then labelCapacity labelCount fuel (capacity * 2) else capacity

/-- The walk over the slots from the hash of a label, to a slot with the label or a free one. A slot holds
an index into the labels plus one. -/
def probeLabel (slots : List ℕ) (labels : List LabelBlock) (label : String) : Option ℕ :=
  probe (fun s => slots.getD s 0 = 0 ∨ (labels.getD (slots.getD s 0 - 1) default).label = label) slots.length
    slots.length (hash label % slots.length)

/-- One label of `ir_cfg_label_index_build`. -/
def labelIndexPut (labels : List LabelBlock) (slots : List ℕ) (i : ℕ) : Option (List ℕ) :=
  (probeLabel hash slots labels (labels.getD i default).label).map fun slot =>
    if slots.getD slot 0 = 0 then slots.set slot (i + 1) else slots

/-- `ir_cfg_label_index_build`. -/
def labelIndexBuild (labels : List LabelBlock) : Option (List ℕ) :=
  if labels.length = 0 then some []
  else
    (List.range labels.length).foldlM (labelIndexPut hash labels)
      (List.replicate (labelCapacity labels.length (labels.length * 2) 16) 0)

/-- `ir_cfg_find_label_block`: `none` when the walk would not end, `some none` when there is no such label. -/
def findLabelBlock (slots : List ℕ) (labels : List LabelBlock) (label : Option String) : Option (Option ℕ) :=
  match label with
  | none => some none
  | some label =>
    if slots.length = 0 then some none
    else
      (probeLabel hash slots labels label).map fun slot =>
        if slots.getD slot 0 = 0 then none else some (labels.getD (slots.getD slot 0 - 1) default).blockIndex

/-! ## Edges -/

/-- `ir_block_append_index_unique`. -/
def appendIndexUnique (items : List ℕ) (value : ℕ) : List ℕ :=
  if value ∈ items then items else items ++ [value]

/-- `ir_cfg_append_edge`. -/
def appendEdge (blocks : List BasicBlock) (source target : ℕ) : Option (List BasicBlock) :=
  if blocks.length ≤ source ∨ blocks.length ≤ target then none
  else
    some <| (blocks.modify source fun b => { b with successors := appendIndexUnique b.successors target }).modify
      target fun b => { b with predecessors := appendIndexUnique b.predecessors source }

/-- `ir_cfg_block_last_non_nop`. -/
def blockLastNonNop (fn : Function) (block : BasicBlock) : Option Inst :=
  ((List.range block.instructionCount).reverse.map fun offset => fn.insn (block.firstInstruction + offset)).find?
    fun i => i.op ≠ .nop

/-- The edge to the next block. -/
def appendNext (blocks : List BasicBlock) (i : ℕ) : Option (List BasicBlock) :=
  if i + 1 < blocks.length then appendEdge blocks i (i + 1) else some blocks

/-- The edge to the block of a label. -/
def appendTarget (slots : List ℕ) (labels : List LabelBlock) (blocks : List BasicBlock) (i : ℕ)
    (label : Option String) : Option (List BasicBlock) :=
  (findLabelBlock hash slots labels label).bind fun target =>
    match target with
    | none => some blocks
    | some target => appendEdge blocks i target

/-- The edges of one block. -/
def linkBlock (fn : Function) (slots : List ℕ) (labels : List LabelBlock) (blocks : List BasicBlock) (i : ℕ) :
    Option (List BasicBlock) :=
  match blockLastNonNop fn (blocks.getD i default) with
  | none => appendNext blocks i
  | some last =>
    if last.op = .jump then appendTarget hash slots labels blocks i last.text
    else if last.isBranch then
      (appendTarget hash slots labels blocks i last.text).bind fun blocks => appendNext blocks i
    else if last.op ≠ .return then appendNext blocks i
    else some blocks

/-! ## Blocks -/

/-- What one instruction sets in `block_starts`. -/
def markStarts (fn : Function) (starts : List Bool) (i : ℕ) : List Bool :=
  let starts := if (fn.insn i).op = .label then starts.set i true else starts
  if ((fn.insn i).isTerminator ∨ (fn.insn i).isBranch) ∧ i + 1 < fn.instructions.length then starts.set (i + 1) true
  else starts

/-- `block_starts`. -/
def blockStarts (fn : Function) : List Bool :=
  (List.range fn.instructions.length).foldl (markStarts fn)
    ((List.replicate fn.instructions.length false).set 0 true)

/-- The next block start from an index on, or the end. -/
def nextStart (starts : List Bool) : ℕ → ℕ → ℕ
  | 0, i => i
  | fuel + 1, i => if i < starts.length ∧ starts.getD i false = false then nextStart starts fuel (i + 1) else i

/-- The loop that cuts the blocks and collects their labels. -/
def cutBlocks (fn : Function) (starts : List Bool) :
    ℕ → ℕ → List BasicBlock → List LabelBlock → List BasicBlock × List LabelBlock
  | 0, _, blocks, labels => (blocks, labels)
  | fuel + 1, start, blocks, labels =>
    if fn.instructions.length ≤ start then (blocks, labels)
    else if starts.getD start false = false then cutBlocks fn starts fuel (start + 1) blocks labels
    else
      let stop := nextStart starts fn.instructions.length (start + 1)
      let first := fn.insn start
      let block : BasicBlock := {
        firstInstruction := start
        instructionCount := stop - start
        label := if first.op = .label then first.text else none }
      let labels :=
        match block.label with
        | some label => labels ++ [⟨label, blocks.length⟩]
        | none => labels
      cutBlocks fn starts fuel stop (blocks ++ [block]) labels

/-- `ir_function_rebuild_cfg`. -/
def rebuild (fn : Function) : Option (List BasicBlock) :=
  let (blocks, labels) := cutBlocks fn (blockStarts fn) fn.instructions.length 0 [] []
  (labelIndexBuild hash labels).bind fun slots =>
    (List.range blocks.length).foldlM (linkBlock hash fn slots labels) blocks

end Cfg

end Mettle.Ir

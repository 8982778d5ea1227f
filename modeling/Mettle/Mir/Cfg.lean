import Mettle.Lib.Dataflow
import Mettle.Mir.Basic

/-!
# The control-flow graph of the register allocator

`codegen/binary/mir_cfg.c`: basic blocks, their edges, block liveness, block definedness and the
cursor that walks a block backwards. A block is named by its first instruction instead of by a block
number. The sets are finite sets of virtual registers. Dominators and loop depths are left out: no set
depends on them.
-/

namespace Mettle.Mir

open Mettle.Lib

/-- `mir_cfg_ends_block`. -/
def Inst.endsBlock (i : Inst) : Bool :=
  i.op = .jmp ∨ i.op = .jcc ∨ i.op = .cmpbr ∨ i.op = .fcmpbr ∨ i.op = .jmpTable ∨ i.op = .ret ∨
    i.op = .trap

namespace MirFunction

variable (fn : MirFunction)

/-! ## Blocks -/

/-- The instruction starts a block of `mir_cfg_split_blocks`. -/
def leader (i : ℕ) : Bool := i = 0 ∨ (fn.insn i).isLabel ∨ (fn.insn (i - 1)).endsBlock

/-- The blocks in order. -/
def leaders : List ℕ := (List.range fn.insnCount).filter fn.leader

/-- `block_of`: the last leader up to an instruction. -/
def blockOf : ℕ → ℕ
  | 0 => 0
  | i + 1 => if fn.leader (i + 1) then i + 1 else blockOf i

/-- The first leader among the next `k` instructions from `i` on, or the index after them. -/
def nextLeader : ℕ → ℕ → ℕ
  | 0, i => i
  | k + 1, i => if fn.leader i then i else nextLeader k (i + 1)

/-- The `end` of a block: the next leader, or the end of the function. -/
def blockEnd (s : ℕ) : ℕ := fn.nextLeader (fn.insnCount - (s + 1)) (s + 1)

/-- The instructions of a block. -/
def blockInsns (s : ℕ) : List ℕ := List.range' s (fn.blockEnd s - s)

/-! ## Edges -/

/-- The labels `mir_cfg_link_block` links a block to and whether the block falls through, by its last
instruction. `none` for a jump table without labels. -/
def linkLabels (last : Inst) : Option (List (Option String)) × Bool :=
  if last.op = .jmp then (some [last.dst.sym], false)
  else if last.isCondBranch then (some [last.dst.sym], true)
  else if last.op = .jmpTable then (last.table, false)
  else if last.op = .ret ∨ last.op = .trap then (some [], false)
  else (some [], true)

/-- `mir_cfg_link_block`: the successors of a block, `none` when a label cannot be resolved. -/
def linkBlock (s : ℕ) : Option (List ℕ) :=
  let (labels, fall) := linkLabels (fn.insn (fn.blockEnd s - 1))
  match labels with
  | none => none
  | some labels =>
    match labels.mapM fn.labelFind with
    | none => none
    | some found =>
      some (found.map fn.blockOf ++
        if fall ∧ fn.blockEnd s < fn.insnCount then [fn.blockEnd s] else [])

/-- The successors of a block of a function whose labels all resolve. -/
def succs (s : ℕ) : List ℕ := (fn.linkBlock s).getD []

/-- The predecessors of a block. -/
def preds (s : ℕ) : List ℕ := fn.leaders.filter fun e => s ∈ fn.succs e

/-- The depth-first walk of `mir_cfg_build_rpo`; edges were pushed on a list head, so they are taken
last to first. -/
def rpoLoop : ℕ → List (ℕ × List ℕ) → List ℕ → List ℕ → List ℕ
  | 0, _, _, order => order
  | _, [], _, order => order
  | fuel + 1, (b, []) :: rest, seen, order => rpoLoop fuel rest seen (b :: order)
  | fuel + 1, (b, e :: es) :: rest, seen, order =>
    if e ∈ seen then rpoLoop fuel ((b, es) :: rest) seen order
    else rpoLoop fuel ((e, (fn.succs e).reverse) :: (b, es) :: rest) (e :: seen) order

/-- `mir_cfg_build_rpo`. -/
def rpoOrder : List ℕ :=
  fn.rpoLoop (fn.leaders.length + (fn.leaders.map fun b => (fn.succs b).length).sum)
    [(0, (fn.succs 0).reverse)] [0] []

/-- `mir_cfg_build_order`: the reachable blocks, then the others. -/
def order : List ℕ := fn.rpoOrder ++ fn.leaders.filter (· ∉ fn.rpoOrder)

/-! ## Block sets -/

/-- One instruction of `mir_cfg_local_sets`. -/
def localStep (acc : Finset ℤ × Finset ℤ) (i : ℕ) : Finset ℤ × Finset ℤ :=
  (acc.1 ∪ (fn.uses i \ acc.2), acc.2 ∪ fn.defs i)

/-- `mir_cfg_local_sets`: what a block reads before writing it, and what it writes. -/
def localSets (s : ℕ) : Finset ℤ × Finset ℤ := (fn.blockInsns s).foldl fn.localStep (∅, ∅)

/-- The equations of `mir_cfg_liveness`. -/
def livenessFlow : Dataflow ℕ ℤ where
  nodes := fn.leaders.reverse
  nbrs := fn.succs
  gen s := (fn.localSets s).1
  kill s := (fn.localSets s).2

/-- The equations of `mir_cfg_definedness`. -/
def definednessFlow : Dataflow ℕ ℤ where
  nodes := fn.order
  nbrs := fn.preds
  gen s := (fn.localSets s).2
  kill _ := ∅

/-- `mir_cfg_seed_entry_defs`. -/
def seedEntryDefs (s : ℕ) : Finset ℤ := if s = 0 then fn.entryDefs else ∅

end MirFunction

/-- `MirCfg`: the two solutions. -/
structure Cfg where
  live : FlowState ℕ ℤ
  defd : FlowState ℕ ℤ

/-- A bound on the sweeps of either loop: a sweep that goes on has set a new bit. -/
def MirFunction.sweeps (fn : MirFunction) : ℕ := fn.leaders.length * fn.vregCount + 1

/-- `mir_cfg_build`. -/
def mirCfgBuild (fn : MirFunction) : Option Cfg :=
  if fn.insnCount = 0 ∨ fn.vregCount = 0 then none
  else if fn.leaders.any fun s => (fn.linkBlock s).isNone then none
  else
    match fn.livenessFlow.solve fn.sweeps fun _ => ∅,
      fn.definednessFlow.solve fn.sweeps fn.seedEntryDefs with
    | some live, some defd => some ⟨live, defd⟩
    | _, _ => none

/-! ## The cursor -/

/-- `MirCfgCursor`. -/
structure Cursor where
  block : ℕ
  pos : ℕ
  live : Finset ℤ
  defd : Finset ℤ
  count : ℤ → ℤ

/-- `mir_cfg_cursor_init`. -/
def cursorInit : Cursor := ⟨0, 0, ∅, ∅, fun _ => 0⟩

/-- Count one more definition. -/
def countDef (fn : MirFunction) (count : ℤ → ℤ) (i : ℕ) : ℤ → ℤ :=
  let d := (fn.insn i).defs
  if fn.valid d then Function.update count d (count d + 1) else count

/-- `mir_cfg_cursor_start_block`. -/
def cursorStartBlock (fn : MirFunction) (cfg : Cfg) (cur : Cursor) (s : ℕ) : Cursor where
  block := s
  pos := fn.blockEnd s
  live := cfg.live.join s
  defd := cfg.defd.val s
  count := (fn.blockInsns s).foldl (countDef fn) cur.count

/-- `mir_cfg_cursor_step_back`. -/
def cursorStepBack (fn : MirFunction) (cfg : Cfg) (cur : Cursor) : Cursor :=
  if cur.pos = 0 ∨ cur.pos ≤ cur.block then cur
  else
    let pos := cur.pos - 1
    let d := (fn.insn pos).defs
    let cur :=
      if fn.valid d then
        let count := Function.update cur.count d (cur.count d - 1)
        { cur with
          live := cur.live.erase d
          count := count
          defd := if count d = 0 ∧ d ∉ cfg.defd.join cur.block then cur.defd.erase d else cur.defd }
      else cur
    { cur with pos := pos, live := cur.live ∪ fn.uses pos }

/-- Walk a block back by some instructions. -/
def cursorBack (fn : MirFunction) (cfg : Cfg) (cur : Cursor) (steps : ℕ) : Cursor :=
  (cursorStepBack fn cfg)^[steps] cur

/-- The walk of the allocator over all blocks: each block is stepped back to its start. -/
def cursorWalk (fn : MirFunction) (cfg : Cfg) (blocks : List ℕ) (cur : Cursor) : Cursor :=
  blocks.foldl (fun cur s =>
    cursorBack fn cfg (cursorStartBlock fn cfg cur s) (fn.blockEnd s - s)) cur

/-- What the walk yields before instruction `i`: the blocks before its block were walked, and its own
block was stepped back to `i`. -/
def cursorBefore (fn : MirFunction) (cfg : Cfg) (i : ℕ) : Cursor :=
  let cur := cursorWalk fn cfg (fn.leaders.takeWhile (· < fn.blockOf i)) cursorInit
  cursorBack fn cfg (cursorStartBlock fn cfg cur (fn.blockOf i)) (fn.blockEnd (fn.blockOf i) - i)

end Mettle.Mir

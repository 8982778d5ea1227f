import Mettle.Mir.Cfg

/-!
# Live intervals

`mir_compute_liveness` of `mir_regalloc.c`: an interval from the first to the last mention of a register, widened over
the loops of backward branches that it reaches out of, where a block analysis has the register live at the header.
Running out of memory is left out.
-/

namespace Mettle.Mir

open Mettle.Lib

/-- `live_start`, `live_end`, `entry_live` and `loop_carried` of a `MirVreg` that has an interval. -/
structure LiveInterval where
  start : ℕ
  stop : ℕ
  entryLive : Bool := false
  loopCarried : Bool := false
  deriving DecidableEq, Repr

/-- The intervals of the virtual registers, `none` for `MIR_LIVE_NONE`. -/
abbrev Intervals := ℤ → Option LiveInterval

/-- The interval of a register that instruction `i` mentions too. -/
def LiveInterval.note (i : ℕ) : Option LiveInterval → LiveInterval
  | none => { start := i, stop := i }
  | some iv => { iv with start := min iv.start i, stop := max iv.stop i }

/-- The interval of a register that is live on entry. -/
def LiveInterval.enter (iv : LiveInterval) : LiveInterval := { iv with start := 0, entryLive := true }

/-- `mir_inst_is_branch`. -/
def Inst.isBranch (i : Inst) : Bool := i.op = .jmp ∨ i.op = .jcc ∨ i.op = .cmpbr ∨ i.op = .fcmpbr

namespace MirFunction

variable (fn : MirFunction)

/-! ## Mentions -/

/-- `mir_note_operand_liveness`. -/
def noteOperand (i : ℕ) (st : Intervals) (o : Operand) : Intervals :=
  (o.vregs.filter fn.valid).foldl (fun st v => Function.update st v (some (.note i (st v)))) st

/-- The mentions of one instruction. -/
def noteInst (st : Intervals) (i : ℕ) : Intervals :=
  let inst := fn.insn i
  if inst.op = .nop then st else [inst.dst, inst.a, inst.b].foldl (fn.noteOperand i) st

/-- The registers that hold a value on entry. -/
def liveEntries : List ℤ :=
  fn.params.map Param.vreg ++
    if fn.returnsIndirect ∧ fn.indirectReturnVreg ≠ -1 then [fn.indirectReturnVreg] else []

/-- A register that is mentioned and holds a value on entry is live from there. -/
def enterLive (st : Intervals) (v : ℤ) : Intervals := Function.update st v ((st v).map LiveInterval.enter)

/-- The intervals before they are widened. -/
def mentionIntervals : Intervals :=
  fn.liveEntries.foldl enterLive ((List.range fn.insnCount).foldl fn.noteInst fun _ => none)

/-! ## Backward branches -/

/-- The back edge of a branch to a label before it: the label and the branch. -/
def backEdge (b : ℕ) : Option (ℕ × ℕ) :=
  let i := fn.insn b
  if i.isBranch ∧ i.dst.kind = .label then ((fn.labelFind i.dst.sym).filter fun l => l < b).map fun l => (l, b)
  else none

/-- `mir_collect_back_edges`. -/
def backEdges : List (ℕ × ℕ) := (List.range fn.insnCount).filterMap fn.backEdge

/-! ## Blocks -/

/-- The instruction starts a block of `mir_live_cfg_build`. -/
def liveLeader (i : ℕ) : Bool := i = 0 ∨ (fn.insn i).op = .label ∨ (fn.insn (i - 1)).endsBlock

/-- The blocks in order. -/
def liveLeaders : List ℕ := (List.range fn.insnCount).filter fn.liveLeader

/-- `block_of`. -/
def liveBlockOf : ℕ → ℕ
  | 0 => 0
  | i + 1 => if fn.liveLeader (i + 1) then i + 1 else liveBlockOf i

/-- The end of a block. -/
def liveBlockEnd (s : ℕ) : ℕ := ((List.range' (s + 1) (fn.insnCount - (s + 1))).find? fn.liveLeader).getD fn.insnCount

/-- The successors of a block, `none` when a label cannot be resolved. -/
def liveLink (s : ℕ) : Option (List ℕ) :=
  let (labels, fall) := linkLabels (fn.insn (fn.liveBlockEnd s - 1))
  (labels.bind fun labels => labels.mapM fn.labelFind).map fun found =>
    found.map fn.liveBlockOf ++
      if fall ∧ fn.liveBlockEnd s < fn.insnCount then [fn.liveBlockEnd s] else []

/-- The registers of the operands of an instruction, be it dropped or not. -/
def operandVregs (i : ℕ) : List ℤ := (fn.insn i).dst.vregs ++ (fn.insn i).a.vregs ++ (fn.insn i).b.vregs

/-- `first_any`. -/
def firstAny (v : ℤ) : Option ℕ := (List.range fn.insnCount).find? fun i => v ∈ fn.operandVregs i

/-- `first_dst`. -/
def firstDst (v : ℤ) : Option ℕ :=
  (List.range fn.insnCount).find? fun i => (fn.insn i).dst.kind = .vreg ∧ (fn.insn i).dst.vreg = v

/-- `killable`: the first mention is a definition, and nothing comes in. -/
def killable (st : Intervals) (v : ℤ) : Bool :=
  (fn.firstDst v).isSome ∧ fn.firstDst v = fn.firstAny v ∧ ¬ (st v).any LiveInterval.entryLive

/-- `mir_live_note_uses`, on the sets of uses and definitions. -/
def liveNoteUses (skipPlain : Bool) (acc : Finset ℤ × Finset ℤ) (o : Operand) : Finset ℤ × Finset ℤ :=
  if skipPlain ∧ o.kind = .vreg then acc else (acc.1 ∪ ((o.vregs.filter fn.valid).toFinset \ acc.2), acc.2)

/-- One instruction of the block sets: a destination counts as a use, the one definition of a killable register
aside. -/
def liveLocalStep (st : Intervals) (acc : Finset ℤ × Finset ℤ) (i : ℕ) : Finset ℤ × Finset ℤ :=
  let inst := fn.insn i
  let acc := fn.liveNoteUses false (fn.liveNoteUses false (fn.liveNoteUses true acc inst.dst) inst.a) inst.b
  let v := inst.dst.vreg
  if inst.dst.kind = .vreg ∧ fn.valid v then
    if fn.killable st v ∧ fn.firstDst v = some i then (acc.1, insert v acc.2)
    else if v ∈ acc.2 then acc
    else (insert v acc.1, acc.2)
  else acc

/-- `use_set` and `def_set` of a block. -/
def liveLocalSets (st : Intervals) (s : ℕ) : Finset ℤ × Finset ℤ :=
  (List.range' s (fn.liveBlockEnd s - s)).foldl (fn.liveLocalStep st) (∅, ∅)

/-- One block of the loop of `mir_live_cfg_build`, and whether its set changed. -/
def liveVisit (st : Intervals) (live : ℕ → Finset ℤ) (s : ℕ) : (ℕ → Finset ℤ) × Bool :=
  let (use, kill) := fn.liveLocalSets st s
  let next := ((fn.liveLink s).getD []).foldl (fun set e => set ∪ (live e \ kill)) (live s) ∪ use
  (Function.update live s next, decide (next ≠ live s))

/-- `MIR_LIVE_CFG_MAX_WORK`. -/
def liveCfgMaxWork : ℕ := 8000000

/-- `mir_live_cfg_build` without `precise_defs`: `live_in` of the blocks, or that there is no graph. The outer `none`
is a loop that does not stop. -/
def liveCfgBuild (st : Intervals) : Option (Option (ℕ → Finset ℤ)) :=
  if fn.insnCount = 0 ∨ fn.vregCount = 0 ∨ liveCfgMaxWork < fn.insnCount * ((fn.vregCount + 63) / 64) then some none
  else if fn.liveLeaders.any fun s => (fn.liveLink s).isNone then some none
  else
    (untilStable (fn.liveVisit st) fn.liveLeaders.reverse (fn.liveLeaders.length * fn.vregCount + 1) fun _ => ∅).map some

/-! ## Widening -/

/-- A register is live at a header, as far as the analysis tells. -/
def headerLive (cfg : Option (ℕ → Finset ℤ)) (l : ℕ) (v : ℤ) : Bool :=
  match cfg with
  | none => true
  | some live => v ∈ live (fn.liveBlockOf l)

/-- The interval overlaps a loop and reaches out of it. -/
def crosses (iv : LiveInterval) (l b : ℕ) : Bool :=
  l ≤ iv.stop ∧ iv.start ≤ b ∧ (iv.start < l ∨ b < iv.stop ∨ (iv.entryLive ∧ l = 0))

/-- The interval with the loop. -/
def widen (iv : LiveInterval) (l b : ℕ) : LiveInterval :=
  { iv with start := min iv.start l, stop := max iv.stop b, loopCarried := true }

/-- `mir_extend_across_edge` for one register. -/
def extendInterval (cfg : Option (ℕ → Finset ℤ)) (l b : ℕ) (v : ℤ) (iv : LiveInterval) : LiveInterval :=
  if fn.headerLive cfg l v ∧ crosses iv l b then widen iv l b else iv

/-- The widening moves an end of the interval. -/
def movesInterval (cfg : Option (ℕ → Finset ℤ)) (l b : ℕ) (v : ℤ) (iv : LiveInterval) : Bool :=
  fn.headerLive cfg l v ∧ crosses iv l b ∧ (l < iv.start ∨ iv.stop < b)

/-- `mir_extend_across_edge`, and whether an interval changed. -/
def extendAcrossEdge (cfg : Option (ℕ → Finset ℤ)) (st : Intervals) (e : ℕ × ℕ) : Intervals × Bool :=
  (fun v => (st v).map (fn.extendInterval cfg e.1 e.2 v),
    (List.range fn.vregCount).any fun v => (st v).any (fn.movesInterval cfg e.1 e.2 v))

/-- The graph that the widening reads; there is none without back edges. -/
def headerCfg : Option (Option (ℕ → Finset ℤ)) :=
  if fn.backEdges = [] then some none else fn.liveCfgBuild fn.mentionIntervals

end MirFunction

/-- `mir_compute_liveness`; `none` is a loop that does not stop. -/
def computeLiveness (fn : MirFunction) : Option Intervals :=
  fn.headerCfg.bind fun cfg =>
    untilStable (fn.extendAcrossEdge cfg) fn.backEdges (2 * fn.insnCount * fn.vregCount + 1) fn.mentionIntervals

end Mettle.Mir

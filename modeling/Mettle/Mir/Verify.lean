import Mettle.Lib.Sweep
import Mettle.Mir.Machine

/-!
# The allocation verifier

`codegen/binary/mir_regalloc_verify.c`: an analysis of its own, one set an instruction, and the checks
of an allocation against it. Metadata allocation succeeds. The verdict separates a function that was
checked from one the verifier let through without looking; both return `1`.
-/

namespace Mettle.Mir

open Mettle.Lib

namespace MirFunction

variable (fn : MirFunction)

/-- `mir_verify_successors`; a `MIR_NOP`, which the callers handle first, falls through. `none` when a
label cannot be resolved. -/
def verifySuccessors (i : ℕ) : Option (List ℕ) :=
  let ins := fn.insn i
  let fallTo := if i + 1 < fn.insnCount then [i + 1] else []
  if ins.op = .jmp then (fn.labelFind ins.dst.sym).map fun t => [t]
  else if ins.op = .jcc ∨ ins.op = .cmpbr ∨ ins.op = .fcmpbr then
    (fn.labelFind ins.dst.sym).map fun t => t :: fallTo
  else if ins.op = .jmpTable then
    match ins.table with
    | none => none
    | some labels => labels.mapM fn.labelFind
  else if ins.op = .ret ∨ ins.op = .trap then some []
  else some fallTo

/-- The successors of a function that passed `mir_verify_build_preds`. -/
def verifySuccs (i : ℕ) : List ℕ := (fn.verifySuccessors i).getD []

/-- `mir_verify_build_preds`: the predecessor edges of an instruction. -/
def verifyPreds (i : ℕ) : List ℕ := (List.range fn.insnCount).filter fun p => i ∈ fn.verifySuccs p

/-- `mir_verify_live_out`. -/
def verifyLiveOut (liveIn : ℕ → Finset ℤ) (i : ℕ) : Finset ℤ :=
  (fn.verifySuccs i).foldl (fun s j => s ∪ liveIn j) ∅

/-- One instruction of `mir_verify_compute_liveness`. -/
def verifyLiveStep (liveIn : ℕ → Finset ℤ) (i : ℕ) : (ℕ → Finset ℤ) × Bool :=
  let next := (fn.verifyLiveOut liveIn i \ fn.defs i) ∪ fn.uses i
  (Function.update liveIn i next, decide (liveIn i ≠ next))

/-- `mir_verify_compute_liveness`: at most 10000 rounds. -/
def verifyComputeLiveness : Option (ℕ → Finset ℤ) :=
  untilStable fn.verifyLiveStep (List.range fn.insnCount).reverse 10000 fun _ => ∅

/-- `mir_verify_defd_out`. -/
def verifyDefdOut (defdIn : ℕ → Finset ℤ) (i : ℕ) : Finset ℤ := defdIn i ∪ fn.defs i

/-- One instruction of `mir_verify_compute_defined`. -/
def verifyDefdStep (defdIn : ℕ → Finset ℤ) (i : ℕ) : (ℕ → Finset ℤ) × Bool :=
  let next := (fn.verifyPreds i).foldl (fun s p => s ∪ fn.verifyDefdOut defdIn p) (defdIn i)
  (Function.update defdIn i next, decide (next ≠ defdIn i))

/-- `mir_verify_compute_defined`: the entry set is never updated. -/
def verifyComputeDefined : Option (ℕ → Finset ℤ) :=
  untilStable fn.verifyDefdStep (List.range' 1 (fn.insnCount - 1)) 10000
    fun i => if i = 0 then fn.entryDefs else ∅

/-- `has_def`. -/
def hasDef (v : ℤ) : Bool :=
  v ∈ fn.entryDefs ∨ (List.range fn.insnCount).any fun i => v ∈ fn.defs i

/-- `mentioned`. -/
def mentioned (v : ℤ) : Bool :=
  (List.range fn.insnCount).any fun i =>
    ¬ (fn.insn i).isLabel ∧ (v ∈ fn.defs i ∨ v ∈ fn.uses i)

/-- The table of virtual registers, as numbers. -/
def allVregs : List ℤ := (List.range fn.vregCount).map fun n : ℕ => (n : ℤ)

/-- The body of the loop of `mir_verify_check_insn` over the live and defined registers. -/
def verifyLiveVreg (sysv : Bool) (i : ℕ) (v : ℤ) : Bool :=
  let ins := fn.insn i
  let vr := fn.vreg v
  !fn.hasDef v || !vr.inRegister || v == ins.defs ||
    !((fn.valid ins.defs && (fn.vreg ins.defs).inRegister && fn.hasDef ins.defs &&
        (fn.vreg ins.defs).rclass == vr.rclass && (fn.vreg ins.defs).phys == vr.phys) ||
      (vr.rclass == .gp && decide (0 ≤ vr.phys) && decide (vr.phys < 16) && ins.gpClobbers vr.phys) ||
      (vr.rclass == .xmm && ins.dst.kind == .phys && ins.dst.rclass == .xmm &&
        vr.phys == ins.dst.phys) ||
      (ins.op.info.callBarrier &&
        !(if vr.rclass = .gp then ins.gpSurvivesBarrier sysv vr.phys
          else ins.xmmSurvivesBarrier vr.phys)))

/-- `mir_verify_check_insn`. -/
def verifyCheckInsn (sysv : Bool) (liveIn defdIn : ℕ → Finset ℤ) (i : ℕ) : Bool :=
  (fn.insn i).op = .nop ∨
    fn.allVregs.all fun v =>
      v ∉ fn.verifyLiveOut liveIn i || v ∉ defdIn i || fn.verifyLiveVreg sysv i v

/-- A register `mir_verify_check_entry` compares. -/
def entryResident (liveIn defdIn : ℕ → Finset ℤ) (v : ℤ) : Bool :=
  fn.hasDef v && decide (v ∈ liveIn 0) && decide (v ∈ defdIn 0) && (fn.vreg v).inRegister

/-- `mir_verify_check_entry`. -/
def verifyCheckEntry (liveIn defdIn : ℕ → Finset ℤ) : Bool :=
  fn.allVregs.all fun a => fn.allVregs.all fun b =>
    !(decide (a < b) && fn.entryResident liveIn defdIn a && fn.entryResident liveIn defdIn b &&
      (fn.vreg a).rclass == (fn.vreg b).rclass && (fn.vreg a).phys == (fn.vreg b).phys)

/-- `mir_verify_check_assignments`. -/
def verifyCheckAssignments : Bool :=
  fn.allVregs.all fun v =>
    !fn.mentioned v ||
      ((fn.vreg v).assigned &&
        if (fn.vreg v).inRegister then decide (0 ≤ (fn.vreg v).phys ∧ (fn.vreg v).phys < 16)
        else decide (0 < (fn.vreg v).spillOffset))

end MirFunction

/-- What the verifier says of an allocation. -/
inductive Verdict where
  | skipped
  | checked
  | rejected
  deriving DecidableEq, Repr

/-- `MIR_VERIFY_MAX_WORK`. -/
def verifyMaxWork : ℕ := 4000000

/-- `mir_regalloc_verify`. -/
def mirRegallocVerify (sysv : Bool) (fn : MirFunction) : Verdict :=
  if fn.vregCount = 0 ∨ fn.insnCount = 0 then .skipped
  else if verifyMaxWork < fn.insnCount * ((fn.vregCount + 63) / 64) then .skipped
  else if (List.range fn.insnCount).any fun i => (fn.verifySuccessors i).isNone then .skipped
  else
    match fn.verifyComputeLiveness, fn.verifyComputeDefined with
    | some liveIn, some defdIn =>
      if fn.verifyCheckAssignments ∧ fn.verifyCheckEntry liveIn defdIn ∧
          (List.range fn.insnCount).all (fn.verifyCheckInsn sysv liveIn defdIn) then .checked
      else .rejected
    | _, _ => .rejected

end Mettle.Mir

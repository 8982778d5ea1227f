import Mettle.Mir.Cfg
import Mettle.Mir.Machine

/-!
# What the allocator knows about a register

`codegen/binary/mir_regalloc.c` up to `mir_color_reg_mask`: which registers an instruction makes busy,
the walk of the cursor that collects what each virtual register must keep clear of, the call barriers it
crosses, and the set of machine registers it may be given. Register masks are finite sets. The table of
virtual registers is a function of the register number while the allocation runs.
-/

namespace Mettle.Mir

/-- What the allocator reads from its surroundings: the ABI, the environment switches
`METTLE_RA_NO_COALESCE` and `METTLE_RA_COALESCE_AGGRESSIVE`, and the loop depths of the control-flow
graph, which only weigh the spill costs. -/
structure Target where
  sysv : Bool
  intParamRegisters : List ℤ
  noCoalesce : Bool := false
  aggressive : Bool := false
  insnDepth : ℕ → ℕ := fun _ => 0

/-- The register numbers of a function, in order. -/
def MirFunction.vregIds (fn : MirFunction) : List ℤ := (List.range fn.vregCount).map Int.ofNat

/-- The sixteen registers of a class, in order. -/
def sixteen : List ℤ := (List.range 16).map Int.ofNat

namespace Inst

/-- `mir_reg_is_pinned`. -/
def regIsPinned (reg : ℤ) : Bool := reg = gpRax ∨ reg = gpRcx ∨ reg = gpRdx

/-- An operand names the general register `reg`. -/
def isFixedGp (o : Operand) (reg : ℤ) : Bool := o.kind = .phys ∧ o.rclass = .gp ∧ o.phys = reg

/-- `mir_inst_clobbers_reg`. -/
def clobbersReg (i : Inst) (reg : ℤ) : Bool :=
  isFixedGp i.dst reg ∨ isFixedGp i.a reg ∨ isFixedGp i.b reg ∨
    (i.op = .irKernel ∧ 0 ≤ reg ∧ reg < 16 ∧ (i.kernelClobbers.getD 0).testBit reg.toNat) ∨
    i.op = .inlineAsm ∨ (regIsPinned reg ∧ reg ∈ i.fixedGp)

/-- `mir_ra_insn_busy_mask`. -/
def busyMask (i : Inst) : Finset ℤ := (sixteen.filter i.clobbersReg).toFinset

/-- The registers an operand list mentions. -/
def mentions (i : Inst) : List ℤ := i.dst.vregs ++ i.a.vregs ++ i.b.vregs

end Inst

/-! ## Walking the blocks -/

variable {α : Type*}

/-- Visit the instructions of the block the cursor is in, last to first. The visit of an instruction
sees the sets after it. -/
def cursorVisitBlock (fn : MirFunction) (cfg : Cfg) (visit : Finset ℤ → Finset ℤ → ℕ → α → α) :
    ℕ → Cursor × α → Cursor × α
  | 0, acc => acc
  | k + 1, (cur, a) =>
    cursorVisitBlock fn cfg visit k
      (cursorStepBack fn cfg cur, visit cur.live cur.defd (cur.pos - 1) a)

/-- The loop over the blocks that `mir_ra_facts_build`, `mir_mark_crosses_call_exact` and
`mir_color_add_exact_edges` share. -/
def cursorVisit (fn : MirFunction) (cfg : Cfg) (visit : Finset ℤ → Finset ℤ → ℕ → α → α) (a : α) : α :=
  (fn.leaders.foldl (fun acc s =>
    cursorVisitBlock fn cfg visit (fn.blockEnd s - s) (cursorStartBlock fn cfg acc.1 s, acc.2))
    (cursorInit, a)).2

/-! ## Facts -/

/-- `MirRaFacts`, less the counters that only a trace prints. -/
structure RaFacts where
  clobbered : ℤ → Finset ℤ
  aDies : ℕ → Bool
  bDies : ℕ → Bool
  undefLive : ℤ → Bool

/-- `mir_ra_facts_note_operand`. -/
def operandDies (fn : MirFunction) (live : Finset ℤ) (o : Operand) : Bool :=
  o.kind = .vreg ∧ fn.valid o.vreg ∧ o.vreg ∉ live

/-- `mir_ra_facts_at`. -/
def factsAt (fn : MirFunction) (live defd : Finset ℤ) (i : ℕ) (facts : RaFacts) : RaFacts :=
  let ins := fn.insn i
  let busy := if ins.op = .nop then ∅ else ins.busyMask
  { clobbered := fun v =>
      if v ∈ live ∧ v ∈ defd ∧ fn.valid v ∧ ¬ (fn.vreg v).addressTaken ∧ v ≠ ins.defs then
        facts.clobbered v ∪ busy
      else facts.clobbered v
    aDies := Function.update facts.aDies i (operandDies fn live ins.a)
    bDies := Function.update facts.bDies i (operandDies fn live ins.b)
    undefLive := fun v => facts.undefLive v || decide (v ∈ live ∧ v ∉ defd ∧ fn.valid v) }

/-- `mir_ra_facts_build` over a built graph. -/
def factsBuild (fn : MirFunction) (cfg : Cfg) : RaFacts :=
  cursorVisit fn cfg (factsAt fn) ⟨fun _ => ∅, fun _ => false, fun _ => false, fun _ => false⟩

/-! ## Intervals, hints and call barriers -/

namespace MirFunction

variable (fn : MirFunction)

/-- An instruction mentions `v`. -/
def hasOperand (v : ℤ) : Bool := fn.insns.any fun i => i.op ≠ .nop ∧ v ∈ i.mentions

/-- `v` is a parameter or the address of an indirect return. -/
def isEntryVreg (v : ℤ) : Bool :=
  (fn.params.any fun p => p.vreg = v) ∨ (fn.returnsIndirect ∧ fn.indirectReturnVreg ≠ -1 ∧
    fn.indirectReturnVreg = v)

/-- `mir_compute_liveness`: which registers have an interval and which are live at entry. -/
def computeLiveness (vregs : ℤ → Vreg) (v : ℤ) : Vreg :=
  { vregs v with hasInterval := fn.hasOperand v, entryLive := fn.hasOperand v && fn.isEntryVreg v }

/-- The operand of an instruction whose register its result should share. -/
def coalesceCandidate (facts : RaFacts) (vregs : ℤ → Vreg) (i : ℕ) : Option (ℤ × ℤ) :=
  let ins := fn.insn i
  let d := ins.dst.vreg
  let dies (o : Operand) (dead : Bool) : Bool :=
    o.kind = .vreg ∧ o.vreg ≠ d ∧ (vregs o.vreg).rclass = (vregs d).rclass ∧ dead
  if ¬ ins.op.info.coalesceCandidate ∨ ins.dst.kind ≠ .vreg then none
  else if ins.op = .imul ∧ ins.b.kind = .imm then none
  else if (ins.op = .shl ∨ ins.op = .shr ∨ ins.op = .sar) ∧ ins.b.kind ≠ .imm then none
  else if dies ins.a (facts.aDies i) then some (d, ins.a.vreg)
  else if ins.op.info.commutative ∧ dies ins.b (facts.bDies i) then some (d, ins.b.vreg)
  else some (d, -1)

/-- One instruction of `mir_compute_coalesce_hints`. -/
def noteCoalesceHint (facts : RaFacts) (vregs : ℤ → Vreg) (i : ℕ) : ℤ → Vreg :=
  match fn.coalesceCandidate facts vregs i with
  | none => vregs
  | some (d, hint) => Function.update vregs d { vregs d with coalesceHint := hint }

/-- `mir_compute_coalesce_hints`. -/
def computeCoalesceHints (facts : RaFacts) (vregs : ℤ → Vreg) : ℤ → Vreg :=
  (List.range fn.insnCount).foldl (fn.noteCoalesceHint facts)
    fun v => { vregs v with coalesceHint := -1 }

/-- The barrier of `mir_mark_crosses_call_exact` at one instruction. -/
def markCrossesAt (live defd : Finset ℤ) (i : ℕ) (vregs : ℤ → Vreg) : ℤ → Vreg :=
  let ins := fn.insn i
  let keepsRax := ins.op = .call ∧ ins.preservesRax
  let keepsXmm := ins.op = .call ∧ ins.preservesXmm
  if ¬ ins.op.info.callBarrier then vregs
  else fun v =>
    if v ∈ live ∧ v ∈ defd ∧ v ≠ ins.defs then
      { vregs v with
        crossesCall := true
        crossesPreservingOnly := (vregs v).crossesPreservingOnly && decide keepsRax
        crossesXmmPreservingOnly := (vregs v).crossesXmmPreservingOnly && decide keepsXmm }
    else vregs v

/-- `mir_mark_crosses_call` with a graph. -/
def markCrossesCall (cfg : Cfg) (vregs : ℤ → Vreg) : ℤ → Vreg :=
  cursorVisit fn cfg fn.markCrossesAt fun v =>
    { vregs v with
      crossesCall := false, crossesPreservingOnly := true, crossesXmmPreservingOnly := true }

/-- `mir_fn_has_calls`. -/
def hasCalls : Bool := fn.insns.any fun i => i.op.info.callBarrier

/-- `mir_fn_has_real_calls`. -/
def hasRealCalls : Bool := fn.insns.any fun i => i.op.info.realCall

/-- `mir_fn_uses_slp`. -/
def usesSlp : Bool := fn.insns.any fun i => i.op.info.inlineKernel

/-- `mir_fn_has_preserving_call(fn, 0)`. -/
def hasRaxPreservingCall : Bool := fn.insns.any fun i => i.op = .call ∧ i.preservesRax

/-- `mir_fn_has_preserving_call(fn, 1)`. -/
def hasXmmPreservingCall : Bool := fn.insns.any fun i => i.op = .call ∧ i.preservesXmm

end MirFunction

/-! ## Pools -/

/-- `MIR_GP_POOL`: `rbx` and `r12` to `r15`. -/
def gpPool : List ℤ := [3, 12, 13, 14, 15]

/-- `MIR_GP_EXTRA`: `rax`, `rcx`, `rdx`, `rsi`, `rdi`, `r8` and `r9`. -/
def gpExtra : List ℤ := [0, 1, 2, 6, 7, 8, 9]

/-- `mir_build_gp_leaf_pool`. -/
def gpLeafPool : List ℤ := gpPool ++ gpExtra

/-- `mir_build_gp_crosscall_pool`. -/
def gpCrosscallPool (sysv : Bool) : List ℤ := [3] ++ (if sysv then [] else [6, 7]) ++ [12, 13, 14, 15]

/-- `mir_cross_pool_for`. -/
def crossPoolFor (vr : Vreg) (base : List ℤ) : List ℤ :=
  base ++ if vr.crossesPreservingOnly then [gpRax] else []

/-- `MIR_XMM_NONVOL_POOL`. -/
def xmmNonvolPool : List ℤ := [8, 9, 10, 11, 12, 13, 14, 15]

/-- `mir_xmm_is_encoder_scratch`. -/
def xmmIsEncoderScratch (sysv : Bool) (reg : ℤ) : Bool :=
  if sysv then reg = 8 ∨ reg = 9 else reg = 4 ∨ reg = 5

/-- The `xmm` registers a function may be given when nothing live crosses a call. -/
def xmmAllocatable (sysv hasXmmArgCall : Bool) : List ℤ :=
  (if hasXmmArgCall then [] else Inst.xmmPool) ++
    xmmNonvolPool.filter fun reg => !xmmIsEncoderScratch sysv reg

namespace MirFunction

variable (fn : MirFunction)

/-- `mir_reg_arg_index`, `none` for `-1`. -/
def regArgIndex (t : Target) (reg : ℤ) : Option ℕ := t.intParamRegisters.idxOf? reg

/-- `mir_vreg_is_param_in_reg`. -/
def vregIsParamInReg (t : Target) (v reg : ℤ) : Bool :=
  match regArgIndex t reg with
  | none => false
  | some ai => !fn.hasRealCalls &&
    fn.params.any fun p => p.vreg = v ∧ ¬ p.isFloat ∧ p.argIndex = ai

/-- The incoming argument slots of `mir_color_reg_mask`. -/
def incomingSlots : ℕ :=
  if fn.incomingArgSlots ≠ 0 then fn.incomingArgSlots
  else fn.params.length + if fn.returnsIndirect then 1 else 0

/-- `mir_color_reg_mask` leaves a pool register out for a register live at entry. -/
def barredAtEntry (t : Target) (vr : Vreg) (v reg : ℤ) : Bool :=
  vr.entryLive && match regArgIndex t reg with
    | none => false
    | some ai => ai < fn.incomingSlots ∧ ¬ fn.vregIsParamInReg t v reg

/-- `mir_color_reg_mask`. -/
def colorRegMask (t : Target) (facts : RaFacts) (allowRbp : Bool) (vregs : ℤ → Vreg) (v : ℤ) :
    Finset ℤ :=
  let vr := vregs v
  match vr.rclass with
  | .gp =>
    let pool := if vr.crossesCall then crossPoolFor vr (gpCrosscallPool t.sysv) else gpLeafPool
    let free (reg : ℤ) : Bool := ¬ (fn.reserveRbx ∧ reg = 3) ∧ ¬ fn.barredAtEntry t vr v reg ∧
      reg ∉ facts.clobbered v
    (pool.filter free).toFinset ∪ if allowRbp ∧ 5 ∉ facts.clobbered v then {5} else ∅
  | .xmm =>
    if vr.crossesCall ∧ ¬ vr.crossesXmmPreservingOnly then ∅
    else
      (if fn.hasXmmArgCall then ∅ else Inst.xmmPool.toFinset) ∪
        if vr.crossesCall then ∅
        else (xmmNonvolPool.filter fun reg => !xmmIsEncoderScratch t.sysv reg).toFinset
  | .vec => ∅

end MirFunction

end Mettle.Mir

import Mettle.Mir.RaFacts

/-!
# The colouring allocator

`mir_color_graph` of `codegen/binary/mir_regalloc.c` with the coalescing of
`codegen/binary/mir_coalesce.c`: the interference graph, merging of copies, the order of removal,
optimistic colouring, the recolouring of the copies that are left, and the frame slots. Metadata
allocation succeeds. The paths of the union-find are followed without compressing them, which changes
no root.
-/

namespace Mettle.Mir

open Mettle.Lib

/-- `MirColorState`; the table of virtual registers is part of it. -/
structure ColorState where
  vregs : ℤ → Vreg
  inter : ℤ → Finset ℤ
  mask : ℤ → Finset ℤ
  degree : ℤ → ℤ
  cost : ℤ → ℤ
  colorable : ℤ → Bool
  removed : ℤ → Bool
  regCount : ℤ → ℤ
  metric : ℤ → ℤ
  narrowSrc : ℤ → ℤ
  useDepth : ℤ → ℕ
  rep : ℤ → ℤ
  physHint : ℤ → ℤ
  copyPartner : ℤ → ℤ

/-- A register in the frame slot that ends at an offset. -/
def Vreg.inSlot (vr : Vreg) (offset : ℤ) : Vreg :=
  { vr with assigned := true, inRegister := false, spillOffset := offset }

theorem Vreg.inSlot_spillOffset (vr : Vreg) (offset : ℤ) :
    (vr.inSlot offset).spillOffset = offset := rfl

namespace MirFunction

variable (fn : MirFunction)

/-! ## Costs -/

/-- `MIR_MAX_SPILL_COST`. -/
def maxSpillCost : ℤ := 2 ^ 24

/-- `mir_scale_cost`. -/
def scaleCost (cost factor : ℤ) : ℤ := min (cost * factor) maxSpillCost

/-- `mir_build_narrowing_extend_map`. -/
def narrowingExtendMap : ℤ → ℤ :=
  fn.insns.foldl (fun map i =>
    if (i.op ≠ .movzx ∧ i.op ≠ .movsx) ∨ 8 ≤ i.width ∨ i.dst.kind ≠ .vreg ∨ i.a.kind ≠ .vreg ∨
        i.dst.vreg = i.a.vreg then map
    else Function.update map i.dst.vreg i.a.vreg) fun _ => -1

/-- `mir_note_operand_depth` over the operands of an instruction. -/
def noteDepth (useDepth : ℤ → ℕ) (i : Inst) (depth : ℕ) : ℤ → ℕ :=
  i.mentions.foldl (fun useDepth v =>
    if fn.valid v ∧ useDepth v < depth then Function.update useDepth v depth else useDepth) useDepth

/-- The uses of one instruction, weighed by its loop depth. -/
def addCosts (colorable : ℤ → Bool) (cost : ℤ → ℤ) (i : Inst) (depth : ℕ) : ℤ → ℤ :=
  i.mentions.foldl (fun cost v =>
    if fn.valid v ∧ colorable v then Function.update cost v (scaleCost (cost v + 10 ^ depth) 1)
    else cost) cost

/-- Scale the cost of some registers. -/
def scaleCosts (colorable : ℤ → Bool) (factor : ℤ) (cost : ℤ → ℤ) (vs : List ℤ) : ℤ → ℤ :=
  vs.foldl (fun cost v =>
    if fn.valid v ∧ colorable v then Function.update cost v (scaleCost (cost v) factor) else cost) cost

/-- `mir_color_spill_costs`. -/
def colorSpillCosts (t : Target) (colorable : ℤ → Bool) : (ℤ → ℤ) × (ℤ → ℕ) :=
  let uses := (List.range fn.insnCount).foldl (fun (acc : (ℤ → ℤ) × (ℤ → ℕ)) i =>
    (fn.addCosts colorable acc.1 (fn.insn i) (t.insnDepth i),
      fn.noteDepth acc.2 (fn.insn i) (t.insnDepth i)))
    (fun v => if colorable v then 1 else 0, fun _ => 0)
  let functions := (fn.insns.filter fun i => i.op = .leaFunc ∧ i.dst.kind = .vreg).map fun i => i.dst.vreg
  (fn.scaleCosts colorable 128 (fn.scaleCosts colorable 32
    (fn.scaleCosts colorable 64 uses.1 fn.iconsts) fn.fconsts) functions, uses.2)

/-- `mir_color_state_init`; `rep` is set by the caller. -/
def colorStateInit (t : Target) (facts : RaFacts) (allowRbp : Bool) (vregs : ℤ → Vreg) : ColorState :=
  let colorable := fun v => fn.valid v && (vregs v).hasInterval && !(vregs v).addressTaken
  let mask := fun v => if colorable v then fn.colorRegMask t facts allowRbp vregs v else ∅
  let costs := fn.colorSpillCosts t colorable
  { vregs := vregs
    inter := fun _ => ∅
    mask := mask
    degree := fun _ => 0
    cost := costs.1
    colorable := colorable
    removed := fun _ => false
    regCount := fun v => (mask v).card
    metric := fun _ => 0
    narrowSrc := fn.narrowingExtendMap
    useDepth := costs.2
    rep := fun v => v
    physHint := fun _ => -1
    copyPartner := fun _ => -1 }

end MirFunction

namespace ColorState

/-! ## Interference -/

/-- `mir_inter_add`. -/
def interAdd (st : ColorState) (a b : ℤ) : ColorState :=
  if a = b ∨ b ∈ st.inter a then st
  else
    let inter := Function.update st.inter a (insert b (st.inter a))
    let inter := Function.update inter b (insert a (inter b))
    let degree := Function.update st.degree a (st.degree a + 1)
    { st with inter := inter, degree := Function.update degree b (degree b + 1) }

/-- `mir_color_add_live_edges`. -/
def addLiveEdges (fn : MirFunction) (st : ColorState) (d : ℤ) (live : Finset ℤ) : ColorState :=
  fn.vregIds.foldl (fun st v =>
    if v ∈ live ∧ st.colorable v ∧ (st.vregs d).rclass = (st.vregs v).rclass then st.interAdd d v
    else st) st

/-- The edges of `mir_color_add_exact_edges` at one instruction. -/
def addEdgesAt (fn : MirFunction) (live defd : Finset ℤ) (i : ℕ) (st : ColorState) : ColorState :=
  let d := (fn.insn i).defs
  if fn.valid d ∧ st.colorable d then st.addLiveEdges fn d (live ∩ defd) else st

/-- `mir_color_add_exact_edges`. -/
def addExactEdges (fn : MirFunction) (cfg : Cfg) (st : ColorState) : ColorState :=
  let st := cursorVisit fn cfg (addEdgesAt fn) st
  let both := cfg.live.val 0 ∩ cfg.defd.join 0
  fn.vregIds.foldl (fun st a => if st.colorable a ∧ a ∈ both then st.addLiveEdges fn a both else st) st

/-- `mir_color_add_narrowing_edges`. -/
def addNarrowingEdges (fn : MirFunction) (st : ColorState) : ColorState :=
  fn.vregIds.foldl (fun st v =>
    let s := st.narrowSrc v
    if ¬ st.colorable v ∨ s = -1 ∨ ¬ fn.valid s ∨ ¬ st.colorable s then st else st.interAdd v s) st

/-! ## Coalescing -/

/-- `mir_color_find`: a path of the union-find has at most as many links as there are registers. -/
def find (fn : MirFunction) (st : ColorState) (v : ℤ) : ℤ :=
  if fn.valid v then st.rep^[fn.vregCount] v else v

/-- The neighbours of a register, in order. -/
def neighbours (fn : MirFunction) (st : ColorState) (v : ℤ) : List ℤ :=
  fn.vregIds.filter (· ∈ st.inter v)

/-- `mir_coalesce_significant`. -/
def significant (st : ColorState) (x : ℤ) (lost : ℤ) : Bool := st.regCount x ≤ st.degree x - lost

/-- `mir_coalesce_briggs_ok`. -/
def briggsOk (fn : MirFunction) (st : ColorState) (u v : ℤ) : Bool :=
  let k := (st.mask u ∩ st.mask v).card
  let ofU := (st.neighbours fn u).countP fun x => st.significant x (if v ∈ st.inter x then 1 else 0)
  let ofV := (st.neighbours fn v).countP fun x => x ∉ st.inter u ∧ st.significant x 0
  k ≠ 0 ∧ ofU + ofV < k

/-- `mir_coalesce_george_ok`. -/
def georgeOk (fn : MirFunction) (st : ColorState) (u v : ℤ) : Bool :=
  let mask := st.mask u ∩ st.mask v
  mask ≠ ∅ ∧ (st.neighbours fn u).all fun x =>
    v ∈ st.inter x ∨ ¬ (st.regCount x ≤ st.degree x ∨ (mask.card : ℤ) ≤ st.degree x)

/-- `mir_coalesce_safe`. -/
def coalesceSafe (fn : MirFunction) (st : ColorState) (u v : ℤ) : Bool :=
  st.briggsOk fn u v || st.georgeOk fn u v || st.georgeOk fn v u

/-- `mir_coalesce_merge_edges` at one neighbour of `v`. -/
def mergeEdge (u v : ℤ) (st : ColorState) (x : ℤ) : ColorState :=
  let inter := Function.update st.inter x ((st.inter x).erase v)
  let degree := Function.update st.degree x (st.degree x - 1)
  if x ∈ inter u then { st with inter := inter, degree := degree }
  else
    let inter := Function.update inter u (insert x (inter u))
    let inter := Function.update inter x (insert u (inter x))
    let degree := Function.update degree u (degree u + 1)
    { st with inter := inter, degree := Function.update degree x (degree x + 1) }

/-- `mir_coalesce_merge_edges`. -/
def mergeEdges (fn : MirFunction) (st : ColorState) (u v : ℤ) : ColorState :=
  let st := (st.neighbours fn v).foldl (mergeEdge u v) st
  { st with inter := Function.update st.inter v ∅, degree := Function.update st.degree v 0 }

/-- `mir_coalesce_merge_vreg`. -/
def mergeVreg (a b : Vreg) : Vreg :=
  { a with
    hasInterval := a.hasInterval || b.hasInterval
    entryLive := a.entryLive || b.entryLive
    crossesCall := a.crossesCall || b.crossesCall
    crossesPreservingOnly := a.crossesPreservingOnly && b.crossesPreservingOnly
    crossesXmmPreservingOnly := a.crossesXmmPreservingOnly && b.crossesXmmPreservingOnly
    coalesceHint := if a.coalesceHint = -1 then b.coalesceHint else a.coalesceHint }

/-- `mir_coalesce_merge`; `MIR_COALESCE_MAX_COST` is `2 ^ 24`. -/
def merge (fn : MirFunction) (st : ColorState) (u v : ℤ) : ColorState :=
  let cost := min (st.cost u + st.cost v) (2 ^ 24)
  let st := st.mergeEdges fn u v
  let mask := st.mask u ∩ st.mask v
  { st with
    mask := Function.update st.mask u mask
    regCount := Function.update st.regCount u mask.card
    cost := Function.update st.cost u cost
    useDepth := Function.update st.useDepth u (max (st.useDepth u) (st.useDepth v))
    narrowSrc := if st.narrowSrc u = -1 then Function.update st.narrowSrc u (st.narrowSrc v)
      else st.narrowSrc
    colorable := Function.update st.colorable v false
    removed := Function.update st.removed v true
    rep := Function.update st.rep v u
    vregs := Function.update st.vregs u (mergeVreg (st.vregs u) (st.vregs v)) }

/-- Which of the two ends of a copy keeps its name. -/
def keepsSource (st : ColorState) (d s : ℤ) : Bool :=
  (st.vregs s).entryLive ∨ (¬ (st.vregs d).entryLive ∧ s < d)

/-- `mir_coalesce_try`. -/
def coalesceTry (t : Target) (fn : MirFunction) (facts : RaFacts) (st : ColorState) (i : ℕ) :
    ColorState × Bool :=
  let d := st.find fn (fn.insn i).dst.vreg
  let s := st.find fn (fn.insn i).a.vreg
  if d = s ∨ ¬ fn.valid d ∨ ¬ fn.valid s ∨ ¬ st.colorable d ∨ ¬ st.colorable s then (st, false)
  else if (st.vregs d).rclass ≠ (st.vregs s).rclass ∨ s ∈ st.inter d then (st, false)
  else if facts.undefLive d ∨ facts.undefLive s then (st, false)
  else
    let (u, v) := if st.keepsSource d s then (s, d) else (d, s)
    if ¬ t.aggressive ∧ ¬ st.coalesceSafe fn u v then (st, false)
    else (st.merge fn u v, true)

/-- `mir_coalesce_rewrite_operand`. -/
def rewriteOperand (fn : MirFunction) (st : ColorState) (o : Operand) : Operand :=
  match o.kind with
  | .vreg => { o with vreg := st.find fn o.vreg }
  | .mem =>
    { o with
      base := st.find fn o.base
      index := st.find fn o.index
      frameHome := if o.frameHomeValid then st.find fn o.frameHome else o.frameHome }
  | _ => o

/-- `mir_coalesce_rewrite` of one instruction: a copy whose ends were merged becomes a `MIR_NOP`. -/
def rewriteInst (fn : MirFunction) (st : ColorState) (i : Inst) : Inst :=
  if i.op = .nop then i
  else
    let i := { i with
      dst := st.rewriteOperand fn i.dst, a := st.rewriteOperand fn i.a, b := st.rewriteOperand fn i.b }
    if i.isCopy ∧ i.dst.vreg = i.a.vreg then { i with op := .nop } else i

/-- The hints of `mir_coalesce_rewrite`. -/
def rewriteHints (fn : MirFunction) (st : ColorState) : ColorState :=
  { st with
    vregs := fun v =>
      if fn.valid v ∧ (st.vregs v).coalesceHint ≠ -1 then
        let hint := st.find fn (st.vregs v).coalesceHint
        { st.vregs v with coalesceHint := if hint = v then -1 else hint }
      else st.vregs v
    narrowSrc := fun v =>
      if fn.valid v ∧ st.narrowSrc v ≠ -1 then st.find fn (st.narrowSrc v) else st.narrowSrc v }

/-- `mir_color_coalesce`: merge until no copy can be merged. Every merge takes a register out of the
graph, so more rounds than registers are never needed. -/
def coalesce (t : Target) (facts : RaFacts) (fn : MirFunction) (st : ColorState) :
    Option (MirFunction × ColorState) :=
  let copies := (List.range fn.insnCount).filter fun i => (fn.insn i).isCopy
  if copies = [] then some (fn, st)
  else
    (untilStable (coalesceTry t fn facts) copies (fn.vregCount + 1) st).map fun st =>
      ({ fn with insns := fn.insns.map (st.rewriteInst fn) }, st.rewriteHints fn)

/-! ## Hints and order -/

/-- `mir_coalesce_hint_phys`. -/
def hintPhys (fn : MirFunction) (st : ColorState) (vop pop : Operand) : ColorState :=
  let v := st.find fn vop.vreg
  if vop.kind ≠ .vreg ∨ pop.kind ≠ .phys ∨ ¬ fn.valid v ∨ ¬ st.colorable v ∨
      (st.vregs v).rclass ≠ pop.rclass ∨ pop.phys < 0 ∨ 32 ≤ pop.phys then st
  else if pop.phys ∈ st.mask v then { st with physHint := Function.update st.physHint v pop.phys }
  else st

/-- `mir_color_note_phys_hints`. -/
def notePhysHints (fn : MirFunction) (st : ColorState) : ColorState :=
  fn.insns.foldl (fun st i =>
    if i.op ≠ .mov then st
    else
      let st := (st.hintPhys fn i.a i.dst).hintPhys fn i.dst i.a
      if i.isCopy ∧ i.dst.vreg ≠ i.a.vreg ∧ fn.valid i.dst.vreg ∧ fn.valid i.a.vreg then
        { st with
          copyPartner := Function.update (Function.update st.copyPartner i.dst.vreg i.a.vreg)
            i.a.vreg i.dst.vreg }
      else st) { st with physHint := fun _ => -1, copyPartner := fun _ => -1 }

/-- `mir_color_metric`. -/
def colorMetric (st : ColorState) (v : ℤ) : ℤ := (st.cost v * 1000).tdiv (st.degree v + 1)

/-- The better of two registers for `mir_color_pick`. -/
def better (st : ColorState) (v best : ℤ) : Bool :=
  if st.useDepth v ≠ st.useDepth best then st.useDepth v < st.useDepth best
  else st.metric v < st.metric best

/-- One register of `mir_color_pick`. -/
def pickStep (st : ColorState) (lowDegreeOnly : Bool) (pick : Option ℤ) (v : ℤ) : Option ℤ :=
  if ¬ st.colorable v ∨ st.removed v then pick
  else if lowDegreeOnly ∧ st.regCount v ≤ st.degree v then pick
  else
    match pick with
    | none => some v
    | some best => if st.better v best then some v else pick

/-- `mir_color_pick`. -/
def colorPick (fn : MirFunction) (st : ColorState) (lowDegreeOnly : Bool) : Option ℤ :=
  fn.vregIds.foldl (st.pickStep lowDegreeOnly) none

/-- Take a picked register out of the graph. -/
def remove (fn : MirFunction) (st : ColorState) (pick : ℤ) : ColorState :=
  let st := { st with removed := Function.update st.removed pick true }
  (st.neighbours fn pick).foldl (fun st b =>
    if st.removed b then st
    else
      let st := { st with degree := Function.update st.degree b (st.degree b - 1) }
      { st with metric := Function.update st.metric b (st.colorMetric b) }) st

/-- The loop of `mir_color_order_vregs`; the stack grows at its head. -/
def orderLoop (fn : MirFunction) : ℕ → ColorState → List ℤ → ColorState × List ℤ
  | 0, st, stack => (st, stack)
  | remaining + 1, st, stack =>
    match (st.colorPick fn true).or (st.colorPick fn false) with
    | none => (st, stack)
    | some pick => orderLoop fn remaining (st.remove fn pick) (pick :: stack)

/-- `mir_color_order_vregs`. -/
def orderVregs (fn : MirFunction) (st : ColorState) : ColorState × List ℤ :=
  orderLoop fn (fn.vregIds.countP fun v => st.colorable v)
    { st with metric := fun v => if st.colorable v then st.colorMetric v else st.metric v } []

/-! ## Colours -/

/-- `mir_color_neighbour_mask`. -/
def neighbourMask (st : ColorState) (v : ℤ) : Finset ℤ :=
  ((st.inter v).filter fun b => (st.vregs b).inRegister = true).image fun b => (st.vregs b).phys

/-- `mir_gp_is_nonvolatile`. -/
def gpIsNonvolatile (reg : ℤ) : Bool := reg ∈ ([3, 6, 7, 12, 13, 14, 15] : List ℤ)

/-- `mir_color_reg_is_saved`. -/
def regIsSaved (vr : Vreg) (reg : ℤ) : Bool :=
  if vr.rclass = .xmm then 8 ≤ reg else gpIsNonvolatile reg ∨ reg = 5

/-- The registers `mir_color_choose_reg` looks at: not the one a narrowed source sits in, if there is
another. -/
def preferred (st : ColorState) (v : ℤ) (avail : Finset ℤ) : Finset ℤ :=
  let source := st.narrowSrc v
  if source ≠ -1 ∧ (st.vregs source).inRegister ∧ avail.erase (st.vregs source).phys ≠ ∅ then
    avail.erase (st.vregs source).phys
  else avail

/-- `mir_color_choose_reg`, `-1` when there is none. -/
def chooseReg (st : ColorState) (v : ℤ) (avail : Finset ℤ) : ℤ :=
  let preferred := st.preferred v avail
  let vr := st.vregs v
  let hint := st.vregs vr.coalesceHint
  let partner := st.vregs (st.copyPartner v)
  if vr.coalesceHint ≠ -1 ∧ hint.inRegister ∧ hint.phys ∈ preferred then hint.phys
  else if 0 ≤ st.physHint v ∧ st.physHint v ∈ preferred then st.physHint v
  else if st.copyPartner v ≠ -1 ∧ partner.inRegister ∧ partner.rclass = vr.rclass ∧
      partner.phys ∈ preferred then partner.phys
  else
    ((sixteen.find? fun r => r ∈ preferred ∧ regIsSaved vr r = false).or
      (sixteen.find? fun r => r ∈ preferred ∧ regIsSaved vr r = true)).getD (-1)

/-- The bytes of a spill slot. -/
def spillBytes (vr : Vreg) : ℤ := if 8 < vr.width then 16 else 8

/-- `mir_color_assign` of one register. -/
def assignOne (acc : ColorState × ℤ) (v : ℤ) : ColorState × ℤ :=
  let (st, nextSpill) := acc
  let vr := st.vregs v
  let avail := st.mask v \ st.neighbourMask v
  if avail = ∅ then
    let nextSpill := nextSpill + spillBytes vr
    ({ st with vregs := Function.update st.vregs v (vr.inSlot nextSpill) }, nextSpill)
  else
    let vr := { vr with assigned := true, inRegister := true, phys := st.chooseReg v avail }
    ({ st with vregs := Function.update st.vregs v vr }, nextSpill)

/-- `mir_color_move_is_coalescable`. -/
def moveIsCoalescable (fn : MirFunction) (facts : RaFacts) (st : ColorState) (i : ℕ) : Bool :=
  let ins := fn.insn i
  let d := ins.dst.vreg
  let s := ins.a.vreg
  ins.isCopy ∧ fn.valid d ∧ fn.valid s ∧ d ≠ s ∧ st.colorable d ∧ st.colorable s ∧
    (st.vregs d).inRegister ∧ (st.vregs s).inRegister ∧ (st.vregs d).rclass = (st.vregs s).rclass ∧
    (st.vregs d).phys ≠ (st.vregs s).phys ∧ facts.aDies i ∧ s ∉ st.inter d ∧
    (st.vregs s).phys ∈ st.mask d ∧ (st.vregs s).phys ∉ st.neighbourMask d

/-- One move of `mir_color_coalesce_moves`. -/
def recolor (fn : MirFunction) (facts : RaFacts) (st : ColorState) (i : ℕ) : ColorState × Bool :=
  let d := (fn.insn i).dst.vreg
  if st.moveIsCoalescable fn facts i then
    let vr := { st.vregs d with phys := (st.vregs (fn.insn i).a.vreg).phys }
    ({ st with vregs := Function.update st.vregs d vr }, true)
  else (st, false)

/-- `mir_color_coalesce_moves`: at most sixteen rounds. -/
def coalesceMoves (fn : MirFunction) (facts : RaFacts) : ℕ → ColorState → ColorState
  | 0, st => st
  | rounds + 1, st =>
    let (st, coalesced) := sweep (recolor fn facts) (List.range fn.insnCount) st
    if coalesced then coalesceMoves fn facts rounds st else st

/-- `mir_color_mirror_members`. -/
def mirrorMembers (fn : MirFunction) (st : ColorState) (v : ℤ) : Vreg :=
  let r := st.find fn v
  if r = v then st.vregs v
  else
    { st.vregs v with
      assigned := (st.vregs r).assigned
      inRegister := (st.vregs r).inRegister
      phys := (st.vregs r).phys
      spillOffset := (st.vregs r).spillOffset
      coalescedInto := r }

end ColorState

/-! ## The allocation -/

/-- `BINARY_SAFETY_GRANULE`. -/
def safetyGranule : ℤ := 16

/-- Round up to a granule. -/
def roundToGranule (n : ℤ) : ℤ := (n + safetyGranule - 1) / safetyGranule * safetyGranule

/-- `mir_home_bytes_for`: the bytes of a home and where the frame ends before it. -/
def homeBytesFor (vr : Vreg) (base : ℤ) : ℤ × ℤ :=
  let home := if 0 < vr.homeBytes then vr.homeBytes else 8
  if vr.homeGranule then (roundToGranule home, roundToGranule base) else (home, base)

/-- Give an address-taken register its home. -/
def assignHome (acc : (ℤ → Vreg) × ℤ) (v : ℤ) : (ℤ → Vreg) × ℤ :=
  let (vregs, nextSpill) := acc
  if (vregs v).addressTaken then
    let (home, base) := homeBytesFor (vregs v) nextSpill
    (Function.update vregs v ((vregs v).inSlot (base + home)), base + home)
  else acc

/-- `mir_color_graph`: the function with its copies merged, the table of registers and the end of the
frame. -/
def colorGraph (t : Target) (fn : MirFunction) (cfg : Cfg) (facts : RaFacts) (allowRbp : Bool)
    (vregs : ℤ → Vreg) (nextSpill : ℤ) : Option (MirFunction × (ℤ → Vreg) × ℤ) :=
  let st := ((fn.colorStateInit t facts allowRbp vregs).addExactEdges fn cfg).addNarrowingEdges fn
  let merged := if t.noCoalesce then some (fn, st) else st.coalesce t facts fn
  merged.map fun (fn, st) =>
    let (st, stack) := (st.notePhysHints fn).orderVregs fn
    let (st, nextSpill) := stack.foldl ColorState.assignOne (st, nextSpill)
    (fn, (st.coalesceMoves fn facts 16).mirrorMembers fn, nextSpill)

/-- The frame in front of the homes: what the lowering used and the slots that keep `rax` and the
`xmm` pool over preserving calls. -/
def preserveSlots (fn : MirFunction) : ℤ × ℤ × ℤ :=
  let base := match fn.context with
    | none => 0
    | some ctx => ctx.rawFrameSize
  let (base, preserve) := if fn.hasRaxPreservingCall then (base + 8, base + 8) else (base, 0)
  if fn.hasXmmPreservingCall then (base + 32, preserve, base + 32) else (base, preserve, 0)

/-- The frame pointer is free only in a function without calls. -/
def allowRbp (fn : MirFunction) : Bool :=
  match fn.context with
  | none => false
  | some ctx => ctx.omitFramePointer && !fn.hasCalls && !fn.usesSlp

/-- `mir_regalloc_color`; `none` without a control-flow graph, where the allocation goes by
intervals. -/
def mirRegallocColor (t : Target) (fn : MirFunction) : Option MirFunction :=
  (mirCfgBuild fn).bind fun cfg =>
    let facts := factsBuild fn cfg
    let vregs := fn.markCrossesCall cfg (fn.computeCoalesceHints facts (fn.computeLiveness fn.vreg))
    let (base, preserve, preserveXmm) := preserveSlots fn
    let (vregs, nextSpill) := fn.vregIds.foldl assignHome (vregs, base)
    (colorGraph t fn cfg facts (allowRbp fn) vregs nextSpill).map fun (out, vregs, frame) =>
      { out with
        vregs := fn.vregIds.map vregs
        preserveSlot := preserve
        preserveXmmSlot := preserveXmm
        spillBytes := frame - match fn.context with
          | none => 0
          | some ctx => ctx.rawFrameSize }

end Mettle.Mir

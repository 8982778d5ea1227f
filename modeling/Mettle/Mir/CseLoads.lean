import Mettle.Mir.Machine

/-!
# Reuse of loads

`mir_cse_loads` of `mir_lower.c`: one pass over the instructions with a table of the loads whose value a
register still holds. A forward branch leaves its table at the label it targets, where the tables of all
such branches are intersected. The pass changes only the source operand of a load it has come to, which
nothing later in the pass looks at, so the tables are computed here from the function before the pass.
-/

namespace Mettle.Mir

/-- `MIR_LOAD_TABLE_MAX`. -/
def loadTableMax : ℕ := 12

/-- `MirAvailableLoad`; `site` is its `def`. -/
structure AvailableLoad where
  site : ℕ
  dst : ℤ
  mem : Operand
  width : ℕ
  isUnsigned : Bool
  isFloat : Bool
  deriving DecidableEq, Repr

/-- `mir_mem_same`. -/
def memSame (a b : Operand) : Bool :=
  a.base = b.base ∧ a.index = b.index ∧ a.scale = b.scale ∧ a.disp = b.disp ∧
    a.physBaseValid = b.physBaseValid ∧ a.physBase = b.physBase

/-- `mir_clobbers_memory`. -/
def Inst.clobbersMemory (i : Inst) : Bool :=
  i.dst.kind = .mem ∨ i.op.info.inlineKernel ∨
    i.op ∈ ([.call, .callIndirect, .trap, .storeGlobal, .storeOutarg] : List Opcode)

/-- `mir_load_table_intersect`. -/
def loadTableIntersect (dst keep : List AvailableLoad) : List AvailableLoad :=
  dst.filter fun a => keep.any fun b => a.dst = b.dst

/-- `mir_cse_is_branch`. -/
def Opcode.cseIsBranch (op : Opcode) : Bool := op ∈ ([.jmp, .jcc, .cmpbr, .bt, .fcmpbr] : List Opcode)

/-- `mir_cse_snapshots_at`. -/
def Opcode.cseSnapshotsAt (op : Opcode) : Bool := op ∈ ([.jmp, .jcc, .cmpbr, .fcmpbr] : List Opcode)

namespace MirFunction

variable (fn : MirFunction)

/-- `mir_cse_find_label`. -/
def cseFindLabel (first : ℕ) (name : String) : Option ℕ :=
  (List.range fn.insnCount).find? fun d =>
    first ≤ d ∧ (fn.insn d).isLabel ∧ (fn.insn d).dst.sym = some name

/-- The label that a branch names, searched from an instruction on. -/
def cseTarget (first b : ℕ) : Option ℕ :=
  if (fn.insn b).dst.kind = .label then (fn.insn b).dst.sym.bind (fn.cseFindLabel first) else none

/-- `pred_hi` of `mir_cse_note_predecessors`: the last branch to a label. -/
def csePredHi (label : ℕ) : Option ℕ :=
  ((List.range fn.insnCount).filter fun b =>
    (fn.insn b).op.cseIsBranch ∧ fn.cseTarget 0 b = some label).getLast?

/-- Whether `mir_cse_state_init` makes room for the tables of the labels. -/
def cseHasSnapshots : Bool :=
  let count := fn.insns.countP fun i => i.op = .label
  0 < count ∧ count ≤ 1024

/-- `mir_prev_real_insn`, `none` for `insn_count`. -/
def prevRealInsn : ℕ → Option ℕ
  | 0 => none
  | i + 1 => if (fn.insn i).op ≠ .nop then some i else prevRealInsn i

/-- The instruction before a label is one that the pass lets fall into it. -/
def cseFallsInto (label : ℕ) : Bool :=
  (fn.prevRealInsn label).any fun p => (fn.insn p).op ≠ .jmp ∧ (fn.insn p).op ≠ .ret

end MirFunction

/-- The table and the tables of the labels, by the index of the label. -/
structure CseState where
  table : List AvailableLoad := []
  snaps : ℕ → Option (List AvailableLoad) := fun _ => none

/-- `mir_cse_snapshot_target`. -/
def CseState.snapshotTarget (fn : MirFunction) (at_ : ℕ) (state : CseState) : CseState :=
  if fn.cseHasSnapshots ∧ (fn.insn at_).op.cseSnapshotsAt then
    match fn.cseTarget (at_ + 1) at_ with
    | none => state
    | some target =>
      let slot :=
        match state.snaps target with
        | none => state.table
        | some slot => loadTableIntersect slot state.table
      { state with snaps := Function.update state.snaps target (some slot) }
  else state

/-- `mir_cse_table_at_label`. -/
def CseState.tableAtLabel (fn : MirFunction) (at_ : ℕ) (state : CseState) : List AvailableLoad :=
  match fn.csePredHi at_ with
  | none => state.table
  | some hi =>
    if at_ ≤ hi then []
    else
      match state.snaps at_ with
      | none => []
      | some slot => if fn.cseFallsInto at_ then loadTableIntersect state.table slot else slot

/-- `mir_cse_reuse_load`. -/
def Inst.cseReuseLoad (i : Inst) (table : List AvailableLoad) : Inst :=
  match table.find? fun e => e.width = i.width ∧ e.isUnsigned = i.isUnsigned ∧ e.isFloat = i.isFloat ∧
      e.dst ≠ i.dst.vreg ∧ memSame e.mem i.a with
  | none => i
  | some e => { i with a := .ofVreg e.dst, b := {} }

/-- `mir_cse_drop_entries_using`. -/
def cseDropEntriesUsing (written : ℤ) (table : List AvailableLoad) : List AvailableLoad :=
  table.filter fun e => e.dst ≠ written ∧ e.mem.base ≠ written ∧ e.mem.index ≠ written

/-- The entry of a load. -/
def AvailableLoad.ofLoad (i : Inst) (site : ℕ) : AvailableLoad where
  site := site
  dst := i.dst.vreg
  mem := i.a
  width := i.width
  isUnsigned := i.isUnsigned
  isFloat := i.isFloat

/-- `mir_cse_record_load`. -/
def cseRecordLoad (i : Inst) (site : ℕ) (table : List AvailableLoad) : List AvailableLoad :=
  if loadTableMax ≤ table.length then table else table ++ [.ofLoad i site]

/-- One round of the loop of `mir_cse_loads`. -/
def CseState.next (fn : MirFunction) (state : CseState) (i : ℕ) : CseState :=
  let insn := fn.insn i
  if insn.op = .nop then state
  else if insn.clobbersMemory then { state with table := [] }
  else
    let state := state.snapshotTarget fn i
    if insn.op = .label then { state with table := state.tableAtLabel fn i }
    else
      let out := if insn.isPlainLoad then insn.cseReuseLoad state.table else insn
      let table := if insn.dst.kind = .vreg then cseDropEntriesUsing insn.dst.vreg state.table else state.table
      { state with table := if out.isPlainLoad then cseRecordLoad out i table else table }

namespace MirFunction

variable (fn : MirFunction)

/-- The state of `mir_cse_loads` before an instruction. -/
def cseBefore : ℕ → CseState
  | 0 => {}
  | i + 1 => (cseBefore i).next fn i

/-- What `mir_cse_loads` makes of an instruction. -/
def cseInsn (i : ℕ) (insn : Inst) : Inst :=
  if insn.isPlainLoad then insn.cseReuseLoad (fn.cseBefore i).table else insn

/-- `mir_cse_loads`. -/
def cseLoads : MirFunction :=
  if fn.insnCount < 2 then fn else { fn with insns := fn.insns.mapIdx fn.cseInsn }

/-! ## Loads that stay available -/

/-- The pass takes the load out of its table at an instruction. -/
def cseKills (load i : ℕ) : Bool :=
  (fn.insn i).op ≠ .nop ∧
    ((fn.insn i).clobbersMemory ∨ ((fn.insn i).dst.kind = .vreg ∧
      ((fn.insn i).dst.vreg = (fn.insn load).dst.vreg ∨ (fn.insn i).dst.vreg = (fn.insn load).a.base ∨
        (fn.insn i).dst.vreg = (fn.insn load).a.index)))

/-- A branch leaves its table at a label. -/
def cseLeaves (b label : ℕ) : Prop :=
  (fn.insn b).op.cseSnapshotsAt = true ∧ fn.cseTarget (b + 1) b = some label

/-- A load can still be in the table after an instruction, along the ways the pass follows. It does not
come past a label with a branch from below. -/
inductive OpenAfter (load : ℕ) : ℕ → Prop
  | load : (fn.insn load).isPlainLoad = true → OpenAfter load load
  | pass {i : ℕ} : OpenAfter load i → (fn.insn (i + 1)).op ≠ .label → fn.cseKills load (i + 1) = false →
    OpenAfter load (i + 1)
  | fall {i : ℕ} : OpenAfter load i → (fn.insn (i + 1)).op = .label → fn.csePredHi (i + 1) = none →
    OpenAfter load (i + 1)
  | join {i b : ℕ} : OpenAfter load i → (fn.insn (i + 1)).op = .label → fn.cseFallsInto (i + 1) = true →
    fn.cseLeaves b (i + 1) → (∀ hi, fn.csePredHi (i + 1) = some hi → hi < i + 1) → OpenAfter load (i + 1)
  | branch {b label : ℕ} : OpenAfter load b → fn.cseLeaves b label →
    (∀ hi, fn.csePredHi label = some hi → hi < label) → OpenAfter load label

/-- A load that `mir_cse_reuse_load` takes for another one. -/
def cseReuses (load i : ℕ) : Bool :=
  (fn.insn i).isPlainLoad ∧ (fn.insn load).width = (fn.insn i).width ∧
    (fn.insn load).isUnsigned = (fn.insn i).isUnsigned ∧ (fn.insn load).isFloat = (fn.insn i).isFloat ∧
    (fn.insn load).dst.vreg ≠ (fn.insn i).dst.vreg ∧ memSame (fn.insn load).a (fn.insn i).a

/-- From an instruction on, a load comes that can take this one's place, along the ways the pass follows. -/
inductive ReusedFrom (load : ℕ) : ℕ → Prop
  | reuse {i : ℕ} : fn.cseReuses load i = true → ReusedFrom load i
  | pass {i : ℕ} : (fn.insn i).op ≠ .label → fn.cseKills load i = false → ReusedFrom load (i + 1) → ReusedFrom load i
  | label {i : ℕ} : (fn.insn i).op = .label → (∀ hi, fn.csePredHi i = some hi → hi < i) → ReusedFrom load (i + 1) →
    ReusedFrom load i
  | branch {b label : ℕ} : fn.cseLeaves b label → ReusedFrom load label → ReusedFrom load b

/-- The same past an instruction: at the next one, or where it branches to. -/
def ReusedPast (load i : ℕ) : Prop :=
  fn.ReusedFrom load (i + 1) ∨ ∃ label, fn.cseLeaves i label ∧ fn.ReusedFrom load label

/-- An instruction that writes memory without the pass taking it for one: a block move, a system call,
inline assembly, an allocation, a write of a frame slot or of a register whose address is taken. -/
def missedWrite (i : Inst) : Bool :=
  i.op ≠ .nop ∧ i.op ≠ .label ∧ ((i.writesMemory ∧ i.clobbersMemory = false) ∨
    (i.dst.kind = .vreg ∧ (fn.vreg i.dst.vreg).addressTaken))

/-- The functions on which the tables of the pass are right, for the loads that can be reused from there on. -/
structure CseSafe : Prop where
  /-- Loads into one register that meet at a label load the same. -/
  join : ∀ {label d d'}, (fn.insn label).op = .label → fn.OpenAfter d label → fn.ReusedFrom d label →
    fn.OpenAfter d' label → (fn.insn d').dst.vreg = (fn.insn d).dst.vreg → (fn.insn d').a = (fn.insn d).a ∧
      (fn.insn d').width = (fn.insn d).width ∧ (fn.insn d').isUnsigned = (fn.insn d).isUnsigned ∧
      (fn.insn d').isFloat = (fn.insn d).isFloat
  /-- No load is available where a jump table or a bit test goes. -/
  tables : ∀ {b label d}, (fn.insn b).op = .jmpTable ∨ (fn.insn b).op = .bt → some label ∈ fn.targets b →
    fn.OpenAfter d label → ¬ fn.ReusedFrom d label
  /-- A load does not write the registers of its own address. -/
  address : ∀ {d}, (fn.insn d).isPlainLoad = true → fn.ReusedPast d d →
    (fn.insn d).dst.vreg ≠ (fn.insn d).a.base ∧ (fn.insn d).dst.vreg ≠ (fn.insn d).a.index
  /-- A load writes a register that does not live in memory, and is not based on a machine register. -/
  register : ∀ {d}, (fn.insn d).isPlainLoad = true → fn.ReusedPast d d →
    (fn.vreg (fn.insn d).dst.vreg).addressTaken = false ∧ (fn.insn d).a.physBaseValid = false
  /-- No write of memory is missed while a load is available. -/
  memory : ∀ {d i}, fn.OpenAfter d i → fn.ReusedPast d (i + 1) → fn.missedWrite (fn.insn (i + 1)) = false
  /-- Operands that differ only in the home they are in are not taken for the same. -/
  homes : ∀ {d i}, fn.OpenAfter d i → fn.cseReuses d (i + 1) = true →
    (fn.insn (i + 1)).a.frameHomeValid = (fn.insn d).a.frameHomeValid ∧
      (fn.insn (i + 1)).a.frameHome = (fn.insn d).a.frameHome
  /-- A branch names its target. -/
  labels : ∀ {b}, (fn.insn b).op.cseIsBranch = true → (fn.insn b).dst.kind = .label

end MirFunction

end Mettle.Mir

import Mettle.Mir.Addressing

/-!
# Folding address arithmetic into memory operands

`mir_fold_address_offsets` and `mir_fold_index_scale` of `mir_lower.c`: an addition of a constant whose sum is
only the base of a memory operand becomes the operand's displacement, and a multiplication by a constant whose
product is only the index of one becomes its scale.
-/

namespace Mettle.Mir

namespace Inst

/-- The registers an instruction reads, its destination register aside. -/
def readList (i : Inst) : List ℤ :=
  if i.op = .nop then [] else i.a.vregs ++ i.b.vregs ++ if i.dst.kind = .vreg then [] else i.dst.vregs

/-- `mir_inst_reads_vreg`. -/
def readsVreg (i : Inst) (v : ℤ) : Bool :=
  v ∈ i.a.vregs ++ i.b.vregs ++ if i.dst.kind = .vreg then [] else i.dst.vregs

/-- The instruction turned into a `MIR_NOP`. -/
def dropped (i : Inst) : Inst := { i with op := .nop }

end Inst

/-- Where an instruction can have the memory operand that is folded into. -/
inductive Slot where
  | a
  | dst
  deriving DecidableEq, Repr

namespace Inst

def slot (i : Inst) : Slot → Operand
  | .a => i.a
  | .dst => i.dst

def setSlot (i : Inst) (slot : Slot) (o : Operand) : Inst :=
  match slot with
  | .a => { i with a := o }
  | .dst => { i with dst := o }

/-- The memory operand with a property, the source before the destination. -/
def findSlot (i : Inst) (p : Operand → Bool) : Option Slot :=
  if i.a.kind = .mem ∧ p i.a then some .a else if i.dst.kind = .mem ∧ p i.dst then some .dst else none

end Inst

namespace MirFunction

variable (fn : MirFunction)

/-- Replace an instruction. -/
def edit (k : ℕ) (f : Inst → Inst) : MirFunction := { fn with insns := fn.insns.modify k f }

/-- `uses` of `mir_count_vreg_uses_defs`. -/
def useCount (v : ℤ) : ℕ := if fn.valid v then (fn.insns.flatMap Inst.readList).count v else 0

/-- `defs` of `mir_count_vreg_uses_defs`. -/
def defCount (v : ℤ) : ℕ := fn.insns.countP fun i => i.op ≠ .nop ∧ i.dst.kind = .vreg ∧ i.dst.vreg = v

end MirFunction

/-- A function with the use counts that a fold keeps up while it deletes instructions. -/
structure Folding where
  fn : MirFunction
  uses : ℤ → ℕ

/-! ## Offsets -/

/-- The memory operand at the end of a chain of copies: the register it is based on, its instruction and place,
and the copies. -/
structure ChaseResult where
  cur : ℤ
  site : ℕ
  slot : Slot
  chain : List ℕ
  deriving DecidableEq, Repr

namespace Folding

/-- The copies that carry an address on. -/
def isLink (st : Folding) (defs : ℤ → ℕ) (i : Inst) (cur : ℤ) : Bool :=
  i.op = .mov ∧ i.dst.kind = .vreg ∧ i.a.kind = .vreg ∧ i.a.vreg = cur ∧ i.b.kind = .none ∧ st.uses cur = 1 ∧
    defs i.dst.vreg = 1 ∧ ¬ (st.fn.vreg i.dst.vreg).addressTaken

/-- The search of `mir_fold_address_offsets` for the memory operand, from the instruction after `u`. -/
def chase (st : Folding) (defs : ℤ → ℕ) : ℕ → ℤ → ℕ → List ℕ → Option ChaseResult
  | 0, _, _, _ => none
  | fuel + 1, cur, u, chain =>
    let i := st.fn.insn (u + 1)
    if st.fn.insnCount ≤ u + 1 then none
    else if i.op = .nop then chase st defs fuel cur (u + 1) chain
    else
      match i.findSlot fun o => o.base = cur with
      | some slot => some ⟨cur, u + 1, slot, chain⟩
      | none =>
        if chain.length < 4 ∧ st.isLink defs i cur then chase st defs fuel i.dst.vreg (u + 1) (chain ++ [u + 1])
        else none

/-- The tests of `mir_fold_address_offsets` on one instruction, with the operand it is folded into. -/
def findOffset (st : Folding) (defs : ℤ → ℕ) (k : ℕ) : Option ChaseResult :=
  let add := st.fn.insn k
  let addr := add.dst.vreg
  if ¬ add.isImmArith .add then none
  else if addr = add.a.vreg ∨ st.uses addr ≠ 1 ∨ defs addr ≠ 1 ∨ (st.fn.vreg addr).addressTaken then none
  else if add.b.imm < -(2 ^ 30) ∨ 2 ^ 30 - 1 < add.b.imm then none
  else
    (st.chase defs st.fn.insnCount addr k []).filter fun r =>
      let i := st.fn.insn r.site
      let mem := i.slot r.slot
      st.uses r.cur = 1 ∧ mem.index ≠ r.cur ∧ ¬ mem.physBaseValid ∧ ¬ (i.isFloat ∧ mem.index ≠ -1) ∧
        -(2 ^ 31) ≤ mem.disp + add.b.imm ∧ mem.disp + add.b.imm < 2 ^ 31

/-- The edits of a fold. -/
def applyOffset (st : Folding) (k : ℕ) (r : ChaseResult) : Folding :=
  let add := st.fn.insn k
  let mem := (st.fn.insn r.site).slot r.slot
  let folded := st.fn.edit r.site fun i =>
    i.setSlot r.slot { mem with base := add.a.vreg, disp := mem.disp + add.b.imm }
  let uses := Function.update st.uses add.a.vreg (st.uses add.a.vreg + 1)
  { fn := (k :: r.chain).foldl (fun fn j => fn.edit j Inst.dropped) folded
    uses := Function.update uses add.dst.vreg 0 }

/-- The body of the loop of `mir_fold_address_offsets`. -/
def offsetStep (defs : ℤ → ℕ) (st : Folding) (k : ℕ) : Folding :=
  match st.findOffset defs k with
  | none => st
  | some r => st.applyOffset k r

end Folding

/-- `mir_fold_address_offsets`. -/
def foldAddressOffsets (fn : MirFunction) : MirFunction :=
  if fn.insnCount < 2 ∨ fn.vregCount = 0 then fn
  else ((List.range fn.insnCount).foldl (Folding.offsetStep fn.defCount) ⟨fn, fn.useCount⟩).fn

/-! ## Scales -/

/-- `mir_index_scale_split`: a scale and what is left to multiply by. -/
def indexScaleSplit (stride : ℤ) : Option (ℤ × ℤ) :=
  if stride ≤ 0 then none
  else
    ([8, 4, 2] : List ℤ).findSome? fun s =>
      if stride % s = 0 ∧ stride / s ∈ ([1, 3, 5, 9] : List ℤ) then some (s, stride / s) else none

/-- The memory operand with the index, and whether the search passed a write of the source. -/
structure ScanResult where
  site : ℕ
  slot : Slot
  clobbered : Bool
  deriving DecidableEq, Repr

namespace Folding

/-- The search of `mir_fold_index_scale` for the memory operand, from instruction `u` on. -/
def scan (fn : MirFunction) (idx source : ℤ) : ℕ → ℕ → Bool → Option ScanResult
  | 0, _, _ => none
  | fuel + 1, u, clobbered =>
    let i := fn.insn u
    if fn.insnCount ≤ u then none
    else if i.op = .nop then scan fn idx source fuel (u + 1) clobbered
    else
      match i.findSlot fun o => o.index = idx with
      | some slot => some ⟨u, slot, clobbered⟩
      | none =>
        if i.readsVreg idx then none
        else scan fn idx source fuel (u + 1) (clobbered || (i.dst.kind = .vreg ∧ i.dst.vreg = source))

/-- The tests of `mir_fold_index_scale` on one instruction, with the operand, the scale and the rest. -/
def findScale (st : Folding) (defs : ℤ → ℕ) (k : ℕ) : Option (ScanResult × ℤ × ℤ) :=
  let mul := st.fn.insn k
  let idx := mul.dst.vreg
  let source := mul.a.vreg
  if ¬ mul.isImmArith .imul then none
  else if idx = source ∨ st.uses idx ≠ 1 ∨ defs idx ≠ 1 ∨ (st.fn.vreg idx).addressTaken then none
  else
    match indexScaleSplit mul.b.imm with
    | none => none
    | some (scale, rest) =>
      ((scan st.fn idx source st.fn.insnCount (k + 1) false).filter fun r =>
        let mem := (st.fn.insn r.site).slot r.slot
        mem.scale = 1 ∧ ¬ mem.physBaseValid ∧ mem.base ≠ -1 ∧ mem.base ≠ idx ∧ ¬ (rest = 1 ∧ r.clobbered)).map
        fun r => (r, scale, rest)

/-- The edits of a fold: the multiplication goes where nothing is left to multiply by. -/
def applyScale (st : Folding) (k : ℕ) (r : ScanResult) (scale rest : ℤ) : Folding :=
  let mul := st.fn.insn k
  let mem := (st.fn.insn r.site).slot r.slot
  if rest = 1 then
    { fn := (st.fn.edit r.site fun i => i.setSlot r.slot { mem with index := mul.a.vreg, scale }).edit k Inst.dropped
      uses := Function.update (Function.update st.uses mul.a.vreg (st.uses mul.a.vreg + 1)) mul.dst.vreg 0 }
  else
    { st with
      fn := (st.fn.edit r.site fun i => i.setSlot r.slot { mem with scale }).edit k fun i =>
        { i with b := { i.b with imm := rest } } }

/-- The body of the loop of `mir_fold_index_scale`. -/
def scaleStep (defs : ℤ → ℕ) (st : Folding) (k : ℕ) : Folding :=
  match st.findScale defs k with
  | none => st
  | some (r, scale, rest) => st.applyScale k r scale rest

end Folding

/-- `mir_fold_index_scale`. -/
def foldIndexScale (fn : MirFunction) : MirFunction :=
  if fn.insnCount < 2 ∨ fn.vregCount = 0 then fn
  else ((List.range fn.insnCount).foldl (Folding.scaleStep fn.defCount) ⟨fn, fn.useCount⟩).fn

end Mettle.Mir

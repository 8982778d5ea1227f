import Mettle.Ir.Cfg

/-!
# Leaving SSA form

`ir_leave_ssa_pass` drops the phis and appends to each predecessor, before its terminator, copies of the
operands its slot gives. The copies of one edge are put in order by emitting, again and again, those
whose destination no pending copy still reads; when there is none, one destination is saved in a fresh
variable.
-/

namespace Mettle.Ir

/-- `ir_operand_same`. -/
def Operand.same (a b : Operand) : Bool :=
  a.kind = b.kind ∧ a.intValue = b.intValue ∧ a.floatBits = b.floatBits ∧
    (a.kind = .float → doubleEq a.floatValue b.floatValue) ∧ a.name = b.name

/-- A phi and the operand that comes in over the edge. -/
structure PhiCopy where
  phi : Inst
  incoming : Operand
  deriving DecidableEq, Repr, Inhabited

namespace PhiCopy

/-- The copy reads a variable. -/
def reads (c : PhiCopy) (o : Operand) : Bool := c.incoming.same o

/-- An assignment with the fields of a phi. -/
def assign (phi : Inst) (dest lhs : Operand) : Inst :=
  { op := .assign
    dest := dest
    lhs := lhs
    valueType := phi.valueType
    isFloat := phi.isFloat
    floatBits := phi.floatBits
    isUnsigned := phi.isUnsigned
    aliasClass := phi.aliasClass }

/-- The copy itself. -/
def copy (c : PhiCopy) : Inst := assign c.phi c.phi.dest c.incoming

/-- One round over the pending copies: the emitted ones, and those left, `kept` first. -/
def round (kept : List PhiCopy) : List PhiCopy → List Inst × List PhiCopy
  | [] => ([], kept)
  | c :: rest =>
    if (kept ++ rest).any fun d => d.reads c.phi.dest then round (kept ++ [c]) rest
    else
      let (out, left) := round kept rest
      (c.copy :: out, left)

/-- `"__ssa_swap%u"`. -/
def swapName (counter : ℕ) : String := "__ssa_swap" ++ toString counter

/-- The copies of one edge in the order they are emitted, and the phis whose destination was saved; `none`
when the loop does not end within its fuel. -/
def sequentialize : ℕ → ℕ → List PhiCopy → Option (List Inst × List Inst)
  | _, _, [] => some ([], [])
  | 0, _, _ :: _ => none
  | fuel + 1, counter, pick :: pending =>
    let (out, left) := round [] (pick :: pending)
    if out ≠ [] then
      (sequentialize fuel counter left).map fun (rest, saved) => (out ++ rest, saved)
    else
      let swap : Operand := .ofSymbol (swapName counter)
      let readers := (pick :: pending).filter fun c => c.reads pick.phi.dest
      let left := (pick :: pending).filter fun c => !c.reads pick.phi.dest
      (sequentialize fuel (counter + 1) left).map fun (rest, saved) =>
        (assign pick.phi swap pick.phi.dest ::
          readers.map (fun c => assign c.phi c.phi.dest swap) ++ rest, pick.phi :: saved)

end PhiCopy

namespace Function

variable (fn : Function)

/-- The phis of a block. -/
def phis (b : ℕ) : List Inst := (fn.blockInstructions b).filter fun i => i.op = .phi

/-- The slot of a predecessor. -/
def phiSlot (b t : ℕ) : Option ℕ :=
  (fn.blockPredecessors t).findIdx? (· = b)

/-- `sources`: the copies the edge from `b` to `t` needs. -/
def edgePairs (b t : ℕ) : List PhiCopy :=
  match fn.phiSlot b t with
  | none => []
  | some slot =>
    (fn.phis t).filterMap fun phi =>
      if phi.arguments.length ≤ slot * 2 then none
      else
        let incoming := phi.arguments.getD (slot * 2) {}
        if incoming.kind = .none ∨ incoming.same phi.dest then none
        else some { phi := phi, incoming := incoming }

/-- The copies of an edge; `counter` is the number of variables saved before. -/
def edgeCopies (b t counter : ℕ) : Option (List Inst × List Inst) :=
  PhiCopy.sequentialize (fn.edgePairs b t).length counter (fn.edgePairs b t)

/-- The copies of all edges from a block. -/
def blockCopies (b : ℕ) : ℕ → List ℕ → Option (List Inst × List Inst)
  | _, [] => some ([], [])
  | counter, t :: rest =>
    (fn.edgeCopies b t counter).bind fun (copies, saved) =>
      (blockCopies b (counter + saved.length) rest).map fun (copies', saved') =>
        (copies ++ copies', saved ++ saved')

/-- The last instruction of a block, when the copies go before it. -/
def blockTerminator (b : ℕ) : List Inst :=
  (fn.blockInstructions b).getLast?.toList.filter fun i => i.isTerminator || i.isBranch

/-- A block without its phis and its terminator. -/
def blockBody (b : ℕ) : List Inst :=
  ((fn.blockInstructions b).take ((fn.blockInstructions b).length - (fn.blockTerminator b).length)).filter
    fun i => i.op ≠ .phi

/-- The instructions of the blocks, and the phis whose destination was saved. -/
def leaveBlocks : ℕ → List ℕ → Option (List Inst × List Inst)
  | _, [] => some ([], [])
  | counter, b :: rest =>
    (fn.blockCopies b counter (fn.blockSuccessors b)).bind fun (copies, saved) =>
      (leaveBlocks (counter + saved.length) rest).map fun (insts, saved') =>
        (fn.blockBody b ++ copies ++ fn.blockTerminator b ++ insts, saved ++ saved')

/-- The declaration of a saved variable; `typeName` is the `name` of a type. -/
def swapDeclaration (typeName : MtlcType → Option String) (counter : ℕ) (phi : Inst) : Inst :=
  { op := .declareLocal
    dest := .ofSymbol (PhiCopy.swapName counter)
    text := some ((phi.valueType.bind typeName).getD "int64")
    valueType := phi.valueType
    isFloat := phi.isFloat
    floatBits := phi.floatBits
    isUnsigned := phi.isUnsigned
    aliasClass := phi.aliasClass }

/-- Declarations go first, after a label. -/
def declareFirst (declarations : List Inst) : List Inst → List Inst
  | i :: rest => if i.op = .label then i :: (declarations ++ rest) else declarations ++ i :: rest
  | [] => declarations

/-- `ir_leave_ssa_pass`. -/
def irLeaveSsaPass (typeName : MtlcType → Option String) : Option Function :=
  if fn.instructions.all fun i => i.op ≠ .phi then some fn
  else
    (fn.leaveBlocks 0 (List.range fn.blockStarts.length)).map fun (insts, saved) =>
      { fn with instructions := declareFirst (saved.mapIdx (swapDeclaration typeName)) insts }

end Function

end Mettle.Ir

import Mettle.Ir.Frame
import Mettle.Lib.Probe

/-!
# Common-subexpression elimination

`ir_common_subexpression_elimination_pass`: one walk over the instructions with a table of the
expressions that are available. Entries are appended and killed in place; an open-addressing index over
the shapes finds a match, chains over the names and a list of the entries with symbols find what a write
kills, and a filter of the names ever noted skips most writes. A `none` result means that a probe of the
index would not stop.
-/

namespace Mettle.Ir

open Mettle.Lib

/-- `IRExpressionKind`. -/
inductive ExprKind where
  | binary | unary | cast | addressOf
  deriving DecidableEq, Repr, Inhabited

/-- `IRExpressionEntry`. -/
structure ExprEntry where
  kind : ExprKind := .binary
  isFloat : Bool := false
  opText : Option String := none
  lhs : Operand := {}
  rhs : Operand := {}
  value : Operand := {}
  alive : Bool := false
  deriving DecidableEq, Repr, Inhabited

/-- `IRExpressionMap`. A slot of the index is `0` when free, else the index of an entry plus one. `occ`
holds, newest first, the hash of a name and the entry it occurs in; `occReady`, `symReady` and
`namesReady` say that the arrays were allocated, which a clear does not undo. -/
structure ExprMap where
  items : List ExprEntry := []
  deadCount : ℕ := 0
  exprSlots : List ℕ := []
  exprValid : Bool := false
  occ : List (UInt64 × ℕ) := []
  occReady : Bool := false
  symEntries : List ℕ := []
  symReady : Bool := false
  nameHashes : List UInt64 := []
  namesReady : Bool := false
  deriving Inhabited

/-- `ir_binary_op_is_commutative`. -/
def binaryOpIsCommutative (op : Option String) : Bool :=
  op ∈ [some "+", some "*", some "&", some "|", some "^", some "==", some "!="]

/-- `ir_instruction_is_cse_candidate`. -/
def Inst.isCseCandidate (i : Inst) : Bool :=
  decide (i.dest.kind ≠ .none) &&
    match i.op with
    | .binary | .cast => i.text.isSome
    | .unary => i.text.isSome && decide (i.text ≠ some "*") && decide (i.text ≠ some "&")
    | .addressOf => i.lhs.isSymbol
    | _ => false

/-- `ir_expression_entry_matches_instruction`. -/
def ExprEntry.matchesInst (e : ExprEntry) (i : Inst) : Bool :=
  match e.kind with
  | .binary =>
    i.op = .binary ∧ i.text.isSome ∧ e.opText = i.text ∧ e.isFloat = i.isFloat ∧
      ((e.lhs.equals i.lhs ∧ e.rhs.equals i.rhs) ∨
        (binaryOpIsCommutative i.text ∧ e.lhs.equals i.rhs ∧ e.rhs.equals i.lhs))
  | .unary =>
    i.op = .unary ∧ i.text.isSome ∧ e.opText = i.text ∧ e.isFloat = i.isFloat ∧ e.lhs.equals i.lhs
  | .cast =>
    i.op = .cast ∧ i.text.isSome ∧ e.opText = i.text ∧ e.isFloat = i.isFloat ∧ e.lhs.equals i.lhs
  | .addressOf => i.op = .addressOf ∧ e.lhs.equals i.lhs

/-- The entry `ir_expression_map_store_value_for_instruction` appends. -/
def Inst.exprEntry (i : Inst) : ExprEntry :=
  match i.op with
  | .unary =>
    { kind := .unary
      isFloat := i.isFloat
      opText := i.text
      lhs := i.lhs
      value := i.dest
      alive := true }
  | .cast =>
    { kind := .cast
      isFloat := i.isFloat
      opText := i.text
      lhs := i.lhs
      value := i.dest
      alive := true }
  | .addressOf => { kind := .addressOf, lhs := i.lhs, value := i.dest, alive := true }
  | _ =>
    { kind := .binary
      isFloat := i.isFloat
      opText := i.text
      lhs := i.lhs
      rhs := i.rhs
      value := i.dest
      alive := true }

/-- `ir_operand_matches_named`. -/
def Operand.matchesNamed (o : Operand) (kind : OperandKind) (name : String) : Bool :=
  o.kind = kind ∧ o.name = some name

/-- `ir_expression_entry_uses_named`. -/
def ExprEntry.usesNamed (e : ExprEntry) (kind : OperandKind) (name : String) : Bool :=
  e.lhs.matchesNamed kind name || e.rhs.matchesNamed kind name || e.value.matchesNamed kind name

/-- The operands of an entry that `ir_expression_map_invalidate_after_store` looks at. -/
def ExprEntry.isAliasable (addrTaken : String → Bool) (e : ExprEntry) : Bool :=
  e.lhs.isAliasable addrTaken || e.rhs.isAliasable addrTaken || e.value.isAliasable addrTaken

namespace ExprMap

/-! ## The table -/

variable (hash : String → UInt64)

/-- `ir_expr_operand_hash`. -/
def operandHash (o : Operand) : UInt64 :=
  let kind : UInt64 := match o.kind with
    | .none => 0
    | .temp => 1
    | .symbol => 2
    | .int => 3
    | .float => 4
    | .string => 5
    | .label => 6
  let h := kind * 2654435761 + 17
  let h := match o.kind with
    | .int => h ^^^ (UInt64.ofBitVec o.intValue * 1099511628211)
    | .string =>
      o.name.elim h fun name => h ^^^ hash name ^^^ (UInt64.ofNat name.utf8ByteSize * 2654435761)
    | .temp | .symbol | .label => o.name.elim h fun name => h ^^^ hash name
    | .none | .float => h
  if h = 0 then 1 else h

/-- `ir_expr_shape_hash`. -/
def shapeHash (kind : ExprKind) (isFloat : Bool) (opText : Option String) (lhs rhs : Operand) :
    UInt64 :=
  let code : UInt64 := match kind with
    | .binary => 0
    | .unary => 1
    | .cast => 2
    | .addressOf => 3
  let h := code * 40503 + 1469598103
  let h :=
    if kind ≠ .addressOf then
      (h * 31 + if isFloat then 1 else 0) ^^^ ((opText.map hash).getD 0)
    else h
  let operands := operandHash hash lhs + if kind = .binary then operandHash hash rhs else 0
  let h := h ^^^ (operands * 1099511628211)
  if h = 0 then 1 else h

/-- `ir_expr_entry_hash`. -/
def entryHash (e : ExprEntry) : UInt64 := shapeHash hash e.kind e.isFloat e.opText e.lhs e.rhs

/-- `ir_expr_name_hash`. -/
def nameHash (name : String) : UInt64 := if hash name = 0 then 1 else hash name

/-- `ir_expression_map_clear`. -/
def clear (m : ExprMap) : ExprMap :=
  { m with
    items := []
    deadCount := 0
    occ := []
    symEntries := []
    nameHashes := []
    exprValid := false }

/-- `ir_expression_map_index_put`; the capacity is a power of two, so a mask is a remainder. -/
def indexPut (items : List ExprEntry) (slots : List ℕ) (index : ℕ) : Option (List ℕ) :=
  let start := (entryHash hash (items.getD index {})).toNat % slots.length
  (probe (fun s => slots.getD s 0 = 0) slots.length slots.length start).map fun s =>
    slots.set s (index + 1)

/-- Double a capacity up to a bound. -/
def grow (bound : ℕ) : ℕ → ℕ → ℕ
  | 0, n => n
  | fuel + 1, n => if n < bound then grow bound fuel (n * 2) else n

/-- `ir_expression_map_index_build`. -/
def indexBuild (m : ExprMap) : Option ExprMap :=
  let needed := grow ((m.items.length + 1) * 2) ((m.items.length + 1) * 2) 16
  let capacity := max m.exprSlots.length needed
  let alive := (List.range m.items.length).filter fun index => (m.items.getD index {}).alive
  (alive.foldlM (indexPut hash m.items) (List.replicate capacity 0)).map fun slots =>
    { m with exprSlots := slots, exprValid := true }

/-- `ir_expression_map_add_occurrence`. -/
def addOccurrence (m : ExprMap) (o : Operand) (index : ℕ) : ExprMap :=
  match o.var with
  | some name => { m with occ := (nameHash hash name, index) :: m.occ, occReady := true }
  | none => m

/-- `ir_expression_map_register_entry`. -/
def registerEntry (m : ExprMap) (index : ℕ) : ExprMap :=
  let e := m.items.getD index {}
  let m := ((m.addOccurrence hash e.lhs index).addOccurrence hash e.rhs index).addOccurrence hash
    e.value index
  if e.lhs.kind = .symbol ∨ e.rhs.kind = .symbol ∨ e.value.kind = .symbol then
    { m with symEntries := m.symEntries ++ [index], symReady := true }
  else m

/-- `ir_expression_map_note_name`. -/
def noteName (m : ExprMap) (o : Operand) : ExprMap :=
  match o.var with
  | some name => { m with nameHashes := nameHash hash name :: m.nameHashes, namesReady := true }
  | none => m

/-- `ir_expression_map_may_hold_name`. -/
def mayHoldName (m : ExprMap) (name : String) : Bool :=
  if m.namesReady then nameHash hash name ∈ m.nameHashes else m.items ≠ []

/-- `ir_expression_map_kill`. -/
def kill (m : ExprMap) (index : ℕ) : ExprMap :=
  if (m.items.getD index {}).alive then
    { m with items := m.items.set index {}, deadCount := m.deadCount + 1 }
  else m

/-- `ir_expression_map_maybe_compact`. -/
def maybeCompact (m : ExprMap) : ExprMap :=
  let live := m.items.length - m.deadCount
  let crowded := m.items.length < m.deadCount * 2
  let chained := 32 < m.occ.length ∧ (live + 1) * 4 < m.occ.length
  if ¬ crowded ∧ ¬ chained then m
  else
    let items := m.items.filter fun e => e.alive
    let m := { m with
      items := items
      deadCount := 0
      exprValid := false
      occ := []
      symEntries := [] }
    (List.range items.length).foldl (registerEntry hash) m

/-- `ir_expression_map_find_matching_instruction`, with the index it may have built. -/
def find (m : ExprMap) (i : Inst) : Option (ExprMap × Option ℕ) :=
  let e := i.exprEntry
  if m.items = [] then some (m, none)
  else
    (if m.exprValid then some m else m.indexBuild hash).bind fun m =>
      let start := (shapeHash hash e.kind i.isFloat i.text i.lhs i.rhs).toNat % m.exprSlots.length
      let holds := fun s => m.exprSlots.getD s 0 ≤ m.items.length ∧
        (m.items.getD (m.exprSlots.getD s 0 - 1) {}).alive ∧
        (m.items.getD (m.exprSlots.getD s 0 - 1) {}).matchesInst i
      (probe (fun s => m.exprSlots.getD s 0 = 0 ∨ holds s) m.exprSlots.length m.exprSlots.length
        start).map fun s =>
          (m, if m.exprSlots.getD s 0 = 0 then none else some (m.exprSlots.getD s 0 - 1))

/-- The new entry of `ir_expression_map_store_value_for_instruction`, its names noted, registered. -/
def addEntry (m : ExprMap) (e : ExprEntry) : ExprMap :=
  let noted := ((m.noteName hash e.lhs).noteName hash e.rhs).noteName hash e.value
  { noted with items := m.items ++ [e] }.registerEntry hash m.items.length

/-- `ir_expression_map_store_value_for_instruction` of a candidate. -/
def storeValue (m : ExprMap) (i : Inst) : Option ExprMap :=
  if i.dest.equals i.lhs ∨ i.dest.equals i.rhs then some m
  else
    (m.find hash i).bind fun (m, existing) =>
      match existing with
      | some index =>
        let e := m.items.getD index {}
        let m := { m with items := m.items.set index { e with value := i.dest } }.noteName hash i.dest
        if i.dest.kind = .symbol ∧ e.lhs.kind ≠ .symbol ∧ e.rhs.kind ≠ .symbol then
          some { m with symEntries := m.symEntries ++ [index], symReady := true }
        else some m
      | none =>
        let m := m.addEntry hash i.exprEntry
        if ¬ m.exprValid then some m
        else if m.exprSlots.length < (m.items.length + 1) * 2 then some { m with exprValid := false }
        else
          (indexPut hash m.items m.exprSlots (m.items.length - 1)).map fun slots =>
            { m with exprSlots := slots }

/-- `ir_expression_map_invalidate_named`. -/
def invalidateNamed (m : ExprMap) (kind : OperandKind) (name : String) : ExprMap :=
  if ¬ m.mayHoldName hash name then m
  else
    let candidates :=
      if m.occReady then (m.occ.filter fun o => o.1 = nameHash hash name).map fun o => o.2
      else List.range m.items.length
    (candidates.foldl (fun m index =>
      if (m.items.getD index {}).alive ∧ (m.items.getD index {}).usesNamed kind name then
        m.kill index
      else m) m).maybeCompact hash

/-- `ir_expression_map_invalidate_after_store`. -/
def invalidateAfterStore (m : ExprMap) (addrTaken : String → Bool) : ExprMap :=
  let candidates := if m.symReady then m.symEntries else List.range m.items.length
  (candidates.foldl (fun m index =>
    if (m.items.getD index {}).alive ∧ (m.items.getD index {}).isAliasable addrTaken then m.kill index
    else m) m).maybeCompact hash

end ExprMap

/-! ## The pass -/

/-- `ir_rewrite_to_assign_operand`. -/
def Inst.rewriteToAssignOperand (i : Inst) (value : Operand) : Inst :=
  { i with
    op := .assign
    lhs := value
    rhs := {}
    arguments := []
    text := none
    isFloat := value.kind = .float
    floatBits := if value.kind = .float then (if value.floatBits = 32 then 32 else 64) else i.floatBits }

/-- `ir_addr_taken_set_build`; `aliasGlobals` are the globals of the module whose address is taken. -/
def Function.addrTaken (fn : Function) (aliasGlobals : List String) (x : String) : Bool :=
  x ∈ aliasGlobals ∨ fn.addressTaken x

/-- The ends of an instruction that clear the table. -/
def Inst.clearsTable (i : Inst) : Bool :=
  i.op ∈ ([.call, .callIndirect, .inlineAsm, .jump, .branchZero, .branchEq, .return] : List Opcode)

/-- One instruction of the pass. -/
def cseInst (hash : String → UInt64) (addrTaken : String → Bool) (m : ExprMap) (i : Inst) :
    Option (ExprMap × Inst) :=
  if i.op = .label then some (m.clear, i)
  else
    let m := if i.writesTemp then m.invalidateNamed hash .temp (i.dest.name.getD "") else m
    let m := if i.writesSymbol then m.invalidateNamed hash .symbol (i.dest.name.getD "") else m
    let found :=
      if i.isCseCandidate then
        (m.find hash i).bind fun (m, existing) =>
          match existing with
          | some index => some (m, i.rewriteToAssignOperand (m.items.getD index {}).value)
          | none => (m.storeValue hash i).map (·, i)
      else some (m, i)
    found.map fun (m, i) =>
      let m := if i.op = .store then m.invalidateAfterStore hash addrTaken else m
      (if i.clearsTable then m.clear else m, i)

/-- The walk over the instructions. -/
def cseInsts (hash : String → UInt64) (addrTaken : String → Bool) :
    ExprMap → List Inst → Option (List Inst)
  | _, [] => some []
  | m, i :: rest =>
    (cseInst hash addrTaken m i).bind fun (m, i) => (cseInsts hash addrTaken m rest).map (i :: ·)

/-- `ir_common_subexpression_elimination_pass`; `hash` is `mettle_fnv1a_hash`. -/
def irCommonSubexpressionEliminationPass (hash : String → UInt64) (aliasGlobals : List String)
    (fn : Function) : Option Function :=
  (cseInsts hash (fn.addrTaken aliasGlobals) {} fn.instructions).map fun insts =>
    { fn with instructions := insts }

end Mettle.Ir

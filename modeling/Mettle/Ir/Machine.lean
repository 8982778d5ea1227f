import Mettle.Ir.Values

/-!
# The reference interpreter

One activation of a function in `ir_interp.c`. Temporaries, parameters and scalar locals whose address
is not taken are variables of the frame; memory, globals, locals that live in memory, calls and the
fused kernels belong to the host and are parameters. Fuel, the recursion limit and the checks of
purity and of GPU grids are left out.
-/

namespace Mettle.Ir

/-- `IIVar` of a variable that is not kept in memory. The size is the byte width a write narrows to,
`-4` for single precision, `0` for none. -/
structure Var where
  value : Value
  size : ℤ := 0
  isUnsigned : Bool := false
  isCstring : Bool := false
  deriving DecidableEq, Repr

/-- `ii_var_write`. -/
def Var.write (F : FloatOps) (x : Var) (v : Value) : Var :=
  { x with
    value :=
      if ¬ v.isFloat ∧ 0 < x.size ∧ x.size < 8 then { v with i := narrowInt v.i x.size x.isUnsigned }
      else if v.isFloat ∧ x.size = -4 then { v with f := F.roundSingle v.f }
      else v }

/-- An argument of a call: a literal is passed by its characters or by its record, as the callee
wants it. -/
inductive Arg where
  | value (v : Value)
  | literal (text : Option String)
  deriving DecidableEq, Repr

/-- An instruction without its operands. -/
def Inst.shape (i : Inst) : Inst := { i with dest := {}, lhs := {}, rhs := {}, arguments := [] }

/-- What surrounds the frame, with states `W`. `loadVar`, `storeVar` and `addressOf` are about the
symbols that are not variables of the frame: globals, and locals that live in memory. `kernel` gets the
values of the operands and returns the values of its results. -/
structure Host (W : Type) where
  floats : FloatOps
  literal : Option String → BitVec 64 × BitVec 64
  loadVar : W → String → Option Value
  storeVar : W → String → Value → Option W
  addressOf : W → String → Option (BitVec 64)
  lookupType : String → Option MtlcType
  declareVar : W → Inst → Option W
  concat : W → BitVec 64 → BitVec 64 → Option (BitVec 64 × W)
  load : W → Inst → BitVec 64 → BitVec 64 → Option Value
  store : W → Inst → BitVec 64 → BitVec 64 → Value → Option String → Option W
  new : W → BitVec 64 → Option (BitVec 64 × W)
  call : W → Inst → List Arg → Option (Value × W)
  callIndirect : W → Inst → BitVec 64 → List Arg → Option (Value × W)
  kernel : W → Inst → List (Option Value) → Option (List Value × W)

/-- The state of an activation. -/
structure State (W : Type) where
  env : String → Option Var
  world : W

variable {W : Type} (H : Host W)

namespace State

/-- `ii_fetch`. A temporary that was never written is poison. -/
def fetch (s : State W) (o : Operand) : Option Value :=
  match o.kind with
  | .none => some (.ofInt 0)
  | .int => some (.ofInt o.intValue)
  | .float => some (.ofFloat o.floatValue)
  | .string => some (.ofInt (H.literal o.name).2)
  | .label => none
  | .temp | .symbol =>
    match o.name with
    | none => some (.ofInt 0)
    | some x =>
      match s.env x with
      | some v => some v.value
      | none => if o.kind = .temp then some .poison else H.loadVar s.world x

/-- `ii_fetch_int` and `ii_fetch_addr`. -/
def fetchInt (s : State W) (o : Operand) : Option (BitVec 64) :=
  (s.fetch H o).map H.floats.asInt

/-- An argument of a call. -/
def fetchArg (s : State W) (o : Operand) : Option Arg :=
  if o.kind = .string then some (.literal o.name) else (s.fetch H o).map .value

/-- `ii_store_dest`. -/
def storeDest (s : State W) (o : Operand) (v : Value) : Option (State W) :=
  match o.kind, o.name with
  | .none, _ => some s
  | .temp, some x =>
    some { s with env := Function.update s.env x (some (((s.env x).getD { value := .poison }).write
      H.floats v)) }
  | .symbol, some x =>
    match s.env x with
    | some var => some { s with env := Function.update s.env x (some (var.write H.floats v)) }
    | none => (H.storeVar s.world x v).map fun w => { s with world := w }
  | _, _ => none

/-- Write the results of an instruction in order. -/
def storeAll (s : State W) : List (Operand × Value) → Option (State W)
  | [] => some s
  | (o, v) :: rest => (s.storeDest H o v).bind fun s => storeAll s rest

end State

/-- The string case of `ii_binary`. -/
def Inst.isConcat (i : Inst) : Bool :=
  i.valueType.any (fun t => t.kind = .string) ∧ i.text = some "+"

/-- `ii_binary`. -/
def Host.binary (w : W) (i : Inst) (a b : Value) : Option (Value × W) :=
  if i.isConcat then
    (H.concat w (H.floats.asInt a) (H.floats.asInt b)).map fun (record, w) => (.ofInt record, w)
  else if i.isFloat then
    (H.floats.binaryFloat (i.text.getD "?") (i.floatBits = 32) (H.floats.asFloat a)
      (H.floats.asFloat b)).map (·, w)
  else
    (binaryInt (i.text.getD "?") i.isUnsigned (H.floats.asInt a) (H.floats.asInt b)).map (·, w)

/-- The comparison of `ii_op_select`. -/
def selectHolds (op : String) (isUnsigned : Bool) (x y : BitVec 64) : Bool :=
  if op = "<" then if isUnsigned then x.ult y else x.slt y
  else if op = "<=" then if isUnsigned then x.ule y else x.sle y
  else if op = ">" then if isUnsigned then y.ult x else y.slt x
  else if op = ">=" then if isUnsigned then y.ule x else y.sle x
  else if op = "==" then x = y
  else x ≠ y

/-- `ii_op_select`. -/
def State.select (s : State W) (i : Inst) : Option Value := do
  let truth ←
    match i.text with
    | some op =>
      if 1 < i.arguments.length then do
        let x ← s.fetchInt H i.lhs
        let y ← s.fetchInt H (i.arguments.getD 1 {})
        some (selectHolds op i.isUnsigned x y)
      else (s.fetchInt H i.lhs).map (· ≠ 0)
    | none => (s.fetchInt H i.lhs).map (· ≠ 0)
  if truth then s.fetch H i.rhs
  else if i.arguments.isEmpty then none
  else s.fetch H (i.arguments.getD 0 {})

/-- The address of a symbol. -/
def State.addressOf (s : State W) (o : Operand) : Option (BitVec 64) :=
  if o.kind ≠ .symbol then none
  else o.name.bind fun x =>
    match s.env x with
    | some var => some var.value.i
    | none => H.addressOf s.world x

/-- The value of `ii_op_assign`: a literal is its characters for a `cstring` local, else its record. -/
def State.assigned (s : State W) (i : Inst) : Option Value :=
  if i.lhs.kind = .string ∧ i.dest.isSymbol ∧
      ((i.dest.name.bind s.env).any fun var => var.isCstring) then
    some (.ofInt (H.literal i.lhs.name).1)
  else s.fetch H i.lhs

/-- The bytes of `ii_op_new`. -/
def State.newSize (s : State W) (o : Operand) : Option (BitVec 64) :=
  if o.kind = .none then some 8
  else (s.fetchInt H o).map fun size => if size.sle 0 then 8 else size

/-- The operands an instruction writes, in order. -/
def Inst.results (i : Inst) : List Operand :=
  match i.op with
  | .rotateAdd => [i.dest, i.lhs, i.rhs]
  | .simdMinmaxI32 => [i.dest, i.arguments.getD 0 {}]
  | .simdLcgU32 => [i.dest, i.rhs]
  | .nop | .label | .prefetch | .safetyCheck | .store | .jump | .branchZero | .branchEq | .return => []
  | _ => [i.dest]

/-- What an instruction that falls through computes: the values of its results and the host after
it. -/
def State.effect (s : State W) (i : Inst) : Option (List Value × W) :=
  match i.op with
  | .nop | .label | .prefetch | .safetyCheck => some ([], s.world)
  | .assign => (s.assigned H i).map fun v => ([v], s.world)
  | .addressOf => (s.addressOf H i.lhs).map fun a => ([.ofInt a], s.world)
  | .load => do
    let address ← s.fetchInt H i.lhs
    let size ← s.fetchInt H i.rhs
    let v ← H.load s.world i.shape address size
    some ([v], s.world)
  | .store => do
    let address ← s.fetchInt H i.dest
    let size ← s.fetchInt H i.rhs
    let v ← s.fetch H i.lhs
    let w ← H.store s.world i.shape address size v (if i.lhs.isSymbol then i.lhs.name else none)
    some ([], w)
  | .binary => do
    let a ← s.fetch H i.lhs
    let b ← s.fetch H i.rhs
    let (v, w) ← H.binary s.world i a b
    some ([{ v with undefined := a.undefined || b.undefined }], w)
  | .unary => do
    let a ← s.fetch H i.lhs
    let v ← H.floats.unary (i.text.getD "?") i.isFloat (i.floatBits = 32) a
    some ([{ v with undefined := a.undefined }], s.world)
  | .rotateAdd => do
    let a ← s.fetch H i.lhs
    let b ← s.fetch H i.rhs
    let next := Value.ofInt (H.floats.asInt a + H.floats.asInt b)
    some ([next, b, next], s.world)
  | .cast => do
    let a ← s.fetch H i.lhs
    let v ← H.floats.cast (i.text.getD "") i.valueType i.isUnsigned a
    some ([{ v with undefined := a.undefined }], s.world)
  | .select => (s.select H i).map fun v => ([v], s.world)
  | .new => do
    let size ← s.newSize H i.rhs
    let (address, w) ← H.new s.world size
    some ([.ofInt address], w)
  | .call => do
    let args ← i.arguments.mapM (s.fetchArg H)
    let (v, w) ← H.call s.world i.shape args
    some ([v], w)
  | .callIndirect => do
    let target ← s.fetchInt H i.lhs
    let args ← i.arguments.mapM (s.fetchArg H)
    let (v, w) ← H.callIndirect s.world i.shape target args
    some ([v], w)
  | .inlineAsm | .phi | .jump | .branchZero | .branchEq | .return | .declareLocal => none
  | _ => H.kernel s.world i.shape ((i.dest :: i.lhs :: i.rhs :: i.arguments).map (s.fetch H))

/-- `ii_local_address_is_taken`. -/
def Function.addressTaken (fn : Function) (x : String) : Bool :=
  fn.instructions.any fun i => i.op = .addressOf ∧ i.lhs.kind = .symbol ∧ i.lhs.name = some x

/-- The frame variable `ii_op_declare_local` makes, `none` for a local that lives in memory. -/
def Host.declaredVar (fn : Function) (i : Inst) (x : String) : Option Var :=
  let type := i.valueType.or (i.text.bind H.lookupType)
  if i.text = some "string" ∨ type.any (fun t => t.kind = .string) then none
  else
    ((parseLocalType i.text).or (type.bind MtlcType.scalar)).bind fun shape =>
      if 1 < shape.count ∨ fn.addressTaken x then none
      else
        some {
          value := if shape.isFloat then { f := 0xC158D605E0000000, isFloat := true, undefined := true }
            else .poison
          size := if shape.isFloat then (if shape.elemSize = 4 then -4 else 0) else shape.elemSize
          isUnsigned := shape.isUnsigned
          isCstring := i.text = some "cstring" ∨ i.text = some "rawptr" }

/-- `ii_op_declare_local`. -/
def State.declareLocal (fn : Function) (s : State W) (i : Inst) : Option (State W) :=
  if i.dest.kind ≠ .symbol then none
  else i.dest.name.bind fun x =>
    match H.declaredVar fn i x with
    | some var => some { s with env := Function.update s.env x (some var) }
    | none => (H.declareVar s.world i).map fun w =>
      { env := Function.update s.env x none, world := w }

/-- One instruction that falls through. -/
def State.exec (fn : Function) (s : State W) (i : Inst) : Option (State W) :=
  if i.op = .declareLocal then s.declareLocal H fn i
  else (s.effect H i).bind fun (values, w) =>
    { s with world := w }.storeAll H (i.results.zip values)

/-! ## Runs -/

/-- Where an activation is: before an instruction, or returned. -/
inductive Config (W : Type) where
  | at (pc : ℕ) (s : State W)
  | returned (v : Value) (s : State W)

/-- The value an activation returned. -/
def Config.value : Config W → Option Value
  | .at _ _ => none
  | .returned v _ => some v

/-- `ii_find_label`: the first label of a name. -/
def Function.findLabel (fn : Function) (name : Option String) : Option ℕ :=
  name.bind fun name => fn.instructions.findIdx? fun i => i.op = .label ∧ i.text = some name

/-- The narrowing of a returned value. -/
def Function.narrowReturn (fn : Function) (F : FloatOps) (v : Value) : Value :=
  match parseLocalType fn.returnTypeName with
  | some shape =>
    if shape.count ≠ 1 then v
    else if ¬ shape.isFloat ∧ ¬ v.isFloat ∧ shape.elemSize < 8 then
      { v with i := narrowInt v.i shape.elemSize shape.isUnsigned }
    else if shape.isFloat ∧ shape.elemSize = 4 ∧ v.isFloat then { v with f := F.roundSingle v.f }
    else v
  | none => v

/-- `IR_OP_BRANCH_EQ`. -/
def State.branchEq (s : State W) (i : Inst) : Option Bool := do
  let a ← s.fetch H i.lhs
  let b ← s.fetch H i.rhs
  some (if a.isFloat ∨ b.isFloat then doubleEq (H.floats.asFloat a) (H.floats.asFloat b) else a.i = b.i)

/-- One step of `ii_exec_function`, `none` when the interpreter stops with an error. -/
def step (fn : Function) : Config W → Option (Config W)
  | .returned v s => some (.returned v s)
  | .at pc s =>
    if fn.instructions.length ≤ pc then some (.returned (.ofInt 0) s)
    else
      let i := fn.insn pc
      match i.op with
      | .jump => (fn.findLabel i.text).map fun target => .at target s
      | .branchZero => do
        let cond ← s.fetch H i.lhs
        if cond.truth then some (.at (pc + 1) s)
        else (fn.findLabel i.text).map fun target => .at target s
      | .branchEq => do
        let equal ← s.branchEq H i
        if equal then (fn.findLabel i.text).map fun target => .at target s
        else some (.at (pc + 1) s)
      | .return =>
        if i.lhs.kind = .none then some (.returned (fn.narrowReturn H.floats (.ofInt 0)) s)
        else (s.fetch H i.lhs).map fun v => .returned (fn.narrowReturn H.floats v) s
      | _ => (s.exec H fn i).map fun s => .at (pc + 1) s

/-- `n` steps. -/
def stepN (fn : Function) : ℕ → Config W → Option (Config W)
  | 0, c => some c
  | n + 1, c => (step H fn c).bind (stepN fn n)

/-- The width `ii_bind_parameters` gives a parameter. -/
def Function.parameterWidth (fn : Function) (index : ℕ) : ℤ × Bool :=
  match parseLocalType (fn.parameterTypes.getD index none) with
  | some shape =>
    if shape.count ≠ 1 then (0, false)
    else if ¬ shape.isFloat then (shape.elemSize, shape.isUnsigned)
    else if shape.elemSize = 4 then (-4, false)
    else (0, false)
  | none => (0, false)

end Mettle.Ir

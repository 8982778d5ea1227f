import Mettle.Ir.Straight

/-!
# If-conversion

`ir_optimize_if_convert.c`: a branch over two short arms that meet again becomes the temporaries of both
arms followed by one select for each symbol an arm assigns. Remarks and source locations are left out.
-/

namespace Mettle.Ir

/-- `IR_IFCONV_MAX_ARM`. -/
def ifconvMaxArm : ℕ := 10

/-- `IR_IFCONV_MAX_LOCALS`. -/
def ifconvMaxLocals : ℕ := 8

/-- `IRIfConvArm`: the instructions that write temporaries, and the symbols assigned with the operands
assigned to them, both in order. -/
structure IfConvArm where
  insns : List Inst := []
  locals : List (String × Operand) := []
  deriving DecidableEq, Repr

/-- `ir_ifconv_binary_is_trapping`. -/
def Inst.ifconvBinaryIsTrapping (i : Inst) : Bool := i.text = some "/" ∨ i.text = some "%"

/-- `ir_operand_is_symbol_named`. -/
def Operand.isSymbolNamed (o : Operand) (name : String) : Bool := o.kind = .symbol ∧ o.name = some name

/-- `ir_ifconv_arm_reads_local`. -/
def Inst.ifconvArmReadsLocal (i : Inst) (name : String) : Bool :=
  i.lhs.isSymbolNamed name || i.rhs.isSymbolNamed name || i.arguments.any (·.isSymbolNamed name)

namespace IfConvArm

/-- One instruction of the loop of `ir_ifconv_scan_arm`. -/
def scanInst (arm : IfConvArm) (i : Inst) : Option IfConvArm :=
  if i.op = .nop then some arm
  else if i.op ≠ .assign ∧ i.op ≠ .binary ∧ i.op ≠ .unary ∧ i.op ≠ .cast then none
  else if i.op = .binary ∧ i.ifconvBinaryIsTrapping then none
  else if i.dest.isSymbol then
    i.dest.name.bind fun name =>
      if i.op ≠ .assign ∨ i.isFloat then none
      else if i.lhs.kind ≠ .temp ∧ i.lhs.kind ≠ .symbol ∧ i.lhs.kind ≠ .int then none
      else if arm.locals.any fun l => l.1 = name then none
      else if ifconvMaxLocals ≤ arm.locals.length then none
      else some { arm with locals := arm.locals ++ [(name, i.lhs)] }
  else if ¬ i.dest.isTemp then none
  else if ifconvMaxArm ≤ arm.insns.length then none
  else some { arm with insns := arm.insns ++ [i] }

/-- `ir_ifconv_scan_arm` on the instructions of an arm: no instruction of it reads a symbol it
assigns. -/
def scan (code : List Inst) : Option IfConvArm :=
  (code.foldlM scanInst {}).bind fun arm =>
    if arm.locals.any fun l => code.any (·.ifconvArmReadsLocal l.1) then none else some arm

/-- `ir_ifconv_arm_value`. -/
def value (arm : IfConvArm) (name : String) : Option Operand :=
  (arm.locals.find? fun l => l.1 = name).map (·.2)

end IfConvArm

/-- A branch that `ir_ifconv_try_at` accepts: the jump that ends the then arm, the label of the else
arm, the label where the arms meet, and the arms. -/
structure IfConvSite where
  thenJump : ℕ
  elseLabel : ℕ
  joinLabel : ℕ
  thenArm : IfConvArm
  elseArm : IfConvArm
  deriving DecidableEq, Repr

namespace Function

variable (fn : Function)

/-- The first instruction from an index on that a test accepts. -/
def firstFrom (start : ℕ) (p : Inst → Bool) : Option ℕ :=
  ((fn.instructions.drop start).findIdx? p).map (start + ·)

/-- `ir_ifconv_label_referenced_outside`. -/
def ifconvLabelReferencedOutside (label : Option String) (lo hi : ℕ) : Bool :=
  (fn.instructions.take lo ++ fn.instructions.drop hi).any fun i =>
    (i.op = .jump ∨ i.op = .branchZero ∨ i.op = .branchEq) ∧ i.text.isSome ∧ i.text = label

/-- What `ir_ifconv_try_at` looks for at a branch. -/
def ifconvSite (branch : ℕ) : Option IfConvSite := do
  let b := fn.insn branch
  guard (b.op = .branchZero ∧ b.text.isSome ∧ (b.lhs.kind = .temp ∨ b.lhs.kind = .symbol))
  let thenJump ← fn.firstFrom (branch + 1) fun i =>
    i.op = .jump ∨ i.op = .label ∨ i.op = .branchZero ∨ i.op = .branchEq ∨ i.op = .return
  guard ((fn.insn thenJump).op = .jump ∧ (fn.insn thenJump).text.isSome)
  let elseLabel ← fn.firstFrom (thenJump + 1) fun i => i.op ≠ .nop
  guard ((fn.insn elseLabel).op = .label ∧ (fn.insn elseLabel).text = b.text)
  let joinLabel ← fn.firstFrom (elseLabel + 1) fun i => i.op = .label
  guard ((fn.insn joinLabel).text = (fn.insn thenJump).text)
  guard (¬ fn.ifconvLabelReferencedOutside b.text branch joinLabel)
  let thenArm ← IfConvArm.scan (fn.slice (branch + 1) thenJump)
  let elseArm ← IfConvArm.scan (fn.slice (elseLabel + 1) joinLabel)
  guard (thenArm.locals ≠ [] ∨ elseArm.locals ≠ [])
  some { thenJump, elseLabel, joinLabel, thenArm, elseArm }

end Function

namespace IfConvSite

variable (site : IfConvSite)

/-- The symbols that get a select, each once. -/
def selected : List String :=
  (site.thenArm.locals ++ site.elseArm.locals).foldl
    (fun seen l => if l.1 ∈ seen then seen else seen ++ [l.1]) []

/-- The select of a symbol: what an arm does not assign stays as it is. -/
def select (cond : Operand) (name : String) : Inst where
  op := .select
  dest := .ofSymbol name
  lhs := cond
  rhs := (site.thenArm.value name).getD (.ofSymbol name)
  arguments := [(site.elseArm.value name).getD (.ofSymbol name)]

/-- The straight-line code that replaces the branch. -/
def seq (cond : Operand) : List Inst :=
  site.thenArm.insns ++ site.elseArm.insns ++ site.selected.map (site.select cond)

end IfConvSite

/-- `ir_ifconv_try_at`, `none` where it leaves the function alone. -/
def Function.ifconvTryAt (fn : Function) (branch : ℕ) : Option Function :=
  (fn.ifconvSite branch).map fun site =>
    { fn with
      instructions := fn.instructions.take branch ++ site.seq (fn.insn branch).lhs ++
        fn.instructions.drop site.joinLabel }

end Mettle.Ir

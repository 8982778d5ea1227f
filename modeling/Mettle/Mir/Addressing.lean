import Mettle.Mir.Machine

/-!
# Execution by the values of operands

An instruction acts on what its operands give it: the value of a register or the address of a memory operand.
Copies and the 64-bit additions and multiplications by a constant are given here; what the other instructions
compute belongs to the host, which sees addresses and not the registers they were made from.
-/

namespace Mettle.Mir

/-- What an operand gives an instruction. -/
inductive Arg (V : Type) where
  | none
  | value (x : V)
  | address (a : BitVec 64)

/-- The parts of a memory operand that its address is made from, taken out. -/
def Operand.shape (o : Operand) : Operand :=
  if o.kind = .mem then { o with base := -1, index := -1, scale := 0, disp := 0 } else o

namespace Inst

/-- An instruction without the addressing of its memory operands. -/
def shape (i : Inst) : Inst := { i with dst := i.dst.shape, a := i.a.shape, b := i.b.shape }

/-- A 64-bit `MIR_ADD` or `MIR_IMUL` of a register and a constant. -/
def isImmArith (op : Opcode) (i : Inst) : Bool :=
  i.op = op ∧ ¬ i.isFloat ∧ i.width = 8 ∧ i.dst.kind = .vreg ∧ i.a.kind = .vreg ∧ i.b.kind = .imm

end Inst

/-- Machines `M` and values of registers `V`, whose words can be computed with. -/
structure AddrHost (M V : Type) where
  word : V → BitVec 64
  ofWord : BitVec 64 → V
  word_ofWord : ∀ w, word (ofWord w) = w
  readPhys : M → ℤ → BitVec 64
  homeAddress : ℤ → BitVec 64
  readHome : M → ℤ → V
  writeHome : M → ℤ → V → M
  exec : M → Inst → Arg V → Arg V → Arg V → Option (V × M)

namespace AddrHost

variable {M V : Type} (H : AddrHost M V) (fn : MirFunction)

/-- The value of a virtual register. -/
def read (s : State M V) (v : ℤ) : V :=
  if (fn.vreg v).addressTaken then H.readHome s.machine v else s.regs v

/-- A write of a virtual register. -/
def write (s : State M V) (v : ℤ) (x : V) : State M V :=
  if (fn.vreg v).addressTaken then { s with machine := H.writeHome s.machine v x }
  else { s with regs := Function.update s.regs v x }

/-- The address of a memory operand. -/
def address (s : State M V) (o : Operand) : BitVec 64 :=
  (if o.frameHomeValid then H.homeAddress o.frameHome
    else if o.physBaseValid then H.readPhys s.machine o.physBase
    else H.word (H.read fn s o.base)) +
  (if o.index = -1 then 0 else H.word (H.read fn s o.index) * BitVec.ofInt 64 o.scale) + BitVec.ofInt 64 o.disp

/-- What an operand gives. -/
def arg (s : State M V) (o : Operand) : Arg V :=
  match o.kind with
  | .vreg => .value (H.read fn s o.vreg)
  | .mem => .address (H.address fn s o)
  | _ => .none

/-- What the destination gives: an address, or the old value where the instruction reads it. -/
def dstArg (s : State M V) (i : Inst) : Arg V :=
  if i.dst.kind = .mem ∨ i.readsDst then H.arg fn s i.dst else .none

/-- A machine instruction of the host. -/
def execHost (s : State M V) (i : Inst) : Option (State M V) :=
  (H.exec s.machine i.shape (H.arg fn s i.a) (H.arg fn s i.b) (H.dstArg fn s i)).map fun (x, m) =>
    if i.dst.kind = .vreg then H.write fn { s with machine := m } i.dst.vreg x else { s with machine := m }

/-- What an instruction does to the registers and the machine. -/
def step (s : State M V) (i : Inst) : Option (State M V) :=
  if i.op = .nop ∨ i.op = .label then some s
  else if i.isCopy then some (H.write fn s i.dst.vreg (H.read fn s i.a.vreg))
  else if i.isImmArith .add then
    some (H.write fn s i.dst.vreg (H.ofWord (H.word (H.read fn s i.a.vreg) + BitVec.ofInt 64 i.b.imm)))
  else if i.isImmArith .imul then
    some (H.write fn s i.dst.vreg (H.ofWord (H.word (H.read fn s i.a.vreg) * BitVec.ofInt 64 i.b.imm)))
  else H.execHost fn s i

/-- The state after the instructions of a control path. -/
def run (s : State M V) : List ℕ → Option (State M V)
  | [] => some s
  | pc :: rest => (H.step fn s (fn.insn pc)).bind fun s' => run s' rest

theorem run_append (s : State M V) (t t' : List ℕ) :
    H.run fn s (t ++ t') = (H.run fn s t).bind fun s' => H.run fn s' t' := by
  induction t generalizing s with
  | nil => rfl
  | cons pc rest ih =>
    simp only [List.cons_append, run]
    cases H.step fn s (fn.insn pc) with
    | none => rfl
    | some s' => exact ih s'

theorem run_snoc (s : State M V) (t : List ℕ) (pc : ℕ) :
    H.run fn s (t ++ [pc]) = (H.run fn s t).bind fun s' => H.step fn s' (fn.insn pc) := by
  rw [run_append]
  congr 1
  funext s'
  simp only [run]
  cases H.step fn s' (fn.insn pc) <;> rfl

end AddrHost

/-- The instructions that control goes through from the entry to one it arrives at. -/
inductive IsPath (fn : MirFunction) : List ℕ → ℕ → Prop
  | entry : IsPath fn [] 0
  | step {t : List ℕ} {pc pc' : ℕ} : IsPath fn t pc → pc' ∈ fn.next pc → IsPath fn (t ++ [pc]) pc'

end Mettle.Mir

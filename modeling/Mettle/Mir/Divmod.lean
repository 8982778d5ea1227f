import Mettle.Mir.Basic
import Mettle.Mir.Magic

/-!
# Division and remainder by a constant

`mir_emit_const_divmod` lowers a division or remainder by a constant to shifts, a multiply-high and a
correction (`codegen/binary/mir_lower.c`). The new registers it takes are numbered from the register count
of the function; the constants of the function's pool are read from their registers.
-/

namespace Mettle.Mir

/-! ## The integer instructions -/

/-- Virtual registers of 64 bits. -/
abbrev Regs := ℤ → BitVec 64

/-- The high half of the product. -/
def mulhi (isUnsigned : Bool) (a b : BitVec 64) : BitVec 64 :=
  if isUnsigned then BitVec.ofNat 64 (a.toNat * b.toNat / 2 ^ 64) else BitVec.ofInt 64 (a.toInt * b.toInt / 2 ^ 64)

/-- What the integer instructions of width 8 compute. Shift counts are taken modulo 64. -/
def Inst.compute (i : Inst) (a b : BitVec 64) : Option (BitVec 64) :=
  if i.width ≠ 8 then none
  else
    match i.op with
    | .mov => some a
    | .neg => some (-a)
    | .add => some (a + b)
    | .sub => some (a - b)
    | .imul => some (a * b)
    | .shl => some (a <<< (b.toNat % 64))
    | .shr => some (a >>> (b.toNat % 64))
    | .sar => some (a.sshiftRight (b.toNat % 64))
    | .mulhi => some (mulhi i.isUnsigned a b)
    | _ => none

section

/-! `load` gives the value of the operands that are neither registers nor immediates. -/

variable (load : Operand → Regs → BitVec 64)

/-- The value of an operand. -/
def Operand.value (o : Operand) (regs : Regs) : BitVec 64 :=
  match o.kind with
  | .vreg => regs o.vreg
  | .imm => BitVec.ofInt 64 o.imm
  | _ => load o regs

/-- The registers after an instruction that writes a register. -/
def Inst.executeInteger (i : Inst) (regs : Regs) : Option Regs :=
  if i.dst.kind = .vreg then
    (i.compute (i.a.value load regs) (i.b.value load regs)).map fun x => Function.update regs i.dst.vreg x
  else none

/-- The registers after a sequence of instructions. -/
def executeAll : List Inst → Regs → Option Regs
  | [], regs => some regs
  | i :: rest, regs => (i.executeInteger load regs).bind (executeAll rest)

end

/-! ## Emission -/

/-- `mir_emit1` at width 8. -/
def emit1 (op : Opcode) (dst a b : Operand) (isUnsigned : Bool := false) : Inst :=
  { op, dst, a, b, width := 8, isUnsigned }

/-- The pool: `fn->iconsts` with the register of each constant. -/
abbrev IConsts := List (BitVec 64 × ℤ)

/-- `mir_iconst_operand`, with `mir_iconst_lookup`. -/
def iconstOperand (iconsts : IConsts) (value : BitVec 64) : Operand :=
  match iconsts.find? fun c => c.1 = value with
  | some c => .ofVreg c.2
  | none => .ofImm value.toInt

/-- The loop of `mir_divmod_shift_for`; a word is shifted away after 64 rounds. -/
def shiftLoop : ℕ → BitVec 64 → ℕ
  | 0, _ => 0
  | fuel + 1, t => if 1 < t then shiftLoop fuel (t >>> 1) + 1 else 0

/-- `mir_divmod_shift_for`. -/
def divmodShiftFor (magnitude : BitVec 64) : ℕ := shiftLoop 64 magnitude

/-- `mir_divmod_value_in_reg`. Like the functions below it gets the register count and returns the new one. -/
def divmodValueInReg (a : Operand) (n : ℤ) : List Inst × Operand × ℤ :=
  if a.kind = .vreg then ([], a, n) else ([emit1 .mov (.ofVreg n) a {}], .ofVreg n, n + 1)

/-- `mir_emit_pow2_quotient_signed`. -/
def emitPow2QuotientSigned (Q A : Operand) (k : ℕ) (C : BitVec 64) (n : ℤ) : List Inst × ℤ :=
  let t1 := .ofVreg n
  let t2 := .ofVreg (n + 1)
  ((if k = 1 then [emit1 .shr t2 A (.ofImm 63) true]
    else [emit1 .sar t1 A (.ofImm 63), emit1 .shr t2 t1 (.ofImm (64 - k)) true]) ++
    [emit1 .add Q A t2, emit1 .sar Q Q (.ofImm k)] ++ (if C.slt 0 then [emit1 .neg Q Q {}] else []), n + 2)

/-- `mir_emit_magic_quotient_unsigned`. -/
def emitMagicQuotientUnsigned (iconsts : IConsts) (Q A : Operand) (ad : BitVec 64) (n : ℤ) :
    Option (List Inst × ℤ) :=
  (cgMagicU64 ad).map fun (M, s, add) =>
    let tv := .ofVreg n
    let mul := emit1 .mulhi tv A (iconstOperand iconsts M) true
    if add then
      let d1 := .ofVreg (n + 1)
      ([mul, emit1 .sub d1 A tv, emit1 .shr d1 d1 (.ofImm 1) true, emit1 .add d1 d1 tv,
        emit1 .shr Q d1 (.ofImm (s - 1)) true], n + 2)
    else ([mul, emit1 .shr Q tv (.ofImm s) true], n + 1)

/-- `mir_emit_magic_quotient_signed`. -/
def emitMagicQuotientSigned (iconsts : IConsts) (Q A : Operand) (C : BitVec 64) (n : ℤ) :
    Option (List Inst × ℤ) :=
  (cgMagicS64 C).map fun (M, s) =>
    let sb := .ofVreg n
    ([emit1 .mulhi Q A (iconstOperand iconsts M)] ++
      (if BitVec.slt 0 C ∧ M.slt 0 then [emit1 .add Q Q A]
        else if C.slt 0 ∧ BitVec.slt 0 M then [emit1 .sub Q Q A] else []) ++
      (if 0 < s then [emit1 .sar Q Q (.ofImm s)] else []) ++
      [emit1 .shr sb Q (.ofImm 63) true, emit1 .add Q Q sb], n + 1)

/-- `mir_emit_times_constant`. -/
def emitTimesConstant (dst Q : Operand) (C : BitVec 64) (n : ℤ) : List Inst × ℤ :=
  if -2 ^ 31 ≤ C.toInt ∧ C.toInt < 2 ^ 31 then ([emit1 .imul dst Q (.ofImm C.toInt)], n)
  else ([emit1 .mov (.ofVreg n) (.ofImm C.toInt) {}, emit1 .imul dst Q (.ofVreg n)], n + 1)

/-- `mir_emit_remainder`. -/
def emitRemainder (dst A Q : Operand) (C : BitVec 64) (n : ℤ) : List Inst × ℤ :=
  let mv := .ofVreg n
  let (insns, n') := emitTimesConstant mv Q C (n + 1)
  (insns ++ [emit1 .sub dst A mv], n')

/-- `mir_emit_quotient`. -/
def emitQuotient (iconsts : IConsts) (Q A : Operand) (C : BitVec 64) (uns : Bool) (n : ℤ) :
    Option (List Inst × ℤ) :=
  let ad := if uns then C else if C.slt 0 then -C else C
  if ad &&& (ad - 1) = 0 then
    if uns then some ([emit1 .shr Q A (.ofImm (divmodShiftFor ad)) true], n)
    else some (emitPow2QuotientSigned Q A (divmodShiftFor ad) C n)
  else if uns then emitMagicQuotientUnsigned iconsts Q A ad n
  else emitMagicQuotientSigned iconsts Q A C n

/-- The rest of `mir_emit_const_divmod`, once the dividend is in a register. -/
def emitDivmodInReg (iconsts : IConsts) (dst A : Operand) (C : BitVec 64) (uns mod : Bool) (n : ℤ) :
    Option (List Inst × ℤ) :=
  if C = 1 then some ([emit1 .mov dst (if mod then .ofImm 0 else A) {}], n)
  else if !uns ∧ C = -1 then
    some ([if mod then emit1 .mov dst (.ofImm 0) {} else emit1 .neg dst A {}], n)
  else
    let qInDst := !mod ∧ dst.kind = .vreg ∧ ¬ (A.kind = .vreg ∧ A.vreg = dst.vreg)
    let Q := if qInDst then dst else .ofVreg n
    (emitQuotient iconsts Q A C uns (if qInDst then n else n + 1)).map fun (quotient, n) =>
      if mod then
        let (remainder, n) := emitRemainder dst A Q C n
        (quotient ++ remainder, n)
      else if qInDst then (quotient, n)
      else (quotient ++ [emit1 .mov dst Q {}], n)

/-- `mir_emit_const_divmod`: nothing for the constant zero. -/
def emitConstDivmod (iconsts : IConsts) (dst a : Operand) (C : BitVec 64) (uns mod : Bool) (n : ℤ) :
    Option (List Inst × ℤ) :=
  if C = 0 then none
  else
    let (load, A, n) := divmodValueInReg a n
    (emitDivmodInReg iconsts dst A C uns mod n).map fun (insns, n) => (load ++ insns, n)

end Mettle.Mir

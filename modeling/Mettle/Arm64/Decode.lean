import Mettle.Arm64.Encode

/-!
# The AArch64 decoder

`arm64_decode` of `codegen/binary/arm64_disasm.c`: a word is told apart by tests of its bit fields, in a fixed
order.
-/

open BitVec

namespace Mettle.Arm64

/-- `Arm64DisOp`. -/
inductive DisOp where
  | unknown
  | nop | mov | movz | movn | movk
  | addReg | subReg | andReg | orrReg | eorReg | addImm | subImm | subsReg | subsImm
  | madd | msub | sdiv | udiv | lslv | lsrv | asrv | ubfm | sbfm | csel | csinc
  | ldrImm | strImm | stp | ldp
  | b | bl | bcond | cbz | cbnz | br | blr | ret
  deriving DecidableEq, Repr

/-- `Arm64Inst`. -/
structure Inst where
  op : DisOp
  is64 : Bool
  rd : ℤ
  rn : ℤ
  rm : ℤ
  rt : ℤ
  rt2 : ℤ
  ra : ℤ
  imm : ℤ
  hw : ℤ
  cond : ℤ
  immr : ℤ
  imms : ℤ
  deriving DecidableEq, Repr

/-- `(w >> lo) & (2 ^ n - 1)`. -/
def bits (w : BitVec 32) (lo n : ℕ) : ℕ := (w >>> lo).toNat % 2 ^ n

/-- `sign_extend`. -/
def signExtend (value n : ℕ) : ℤ := (value % 2 ^ n ^^^ 2 ^ (n - 1) : ℕ) - 2 ^ (n - 1)

/-- The fields every word is given. -/
def rawFields (w : BitVec 32) : Inst where
  op := .unknown
  is64 := bits w 31 1 = 1
  rd := bits w 0 5
  rn := bits w 5 5
  rm := bits w 16 5
  rt := bits w 0 5
  rt2 := bits w 10 5
  ra := bits w 10 5
  imm := 0
  hw := bits w 21 2
  cond := 0
  immr := bits w 16 6
  imms := bits w 10 6

/-- `arm64_decode`, from the test for the wide moves on. -/
def decodeFields (w : BitVec 32) : Inst :=
  let i := rawFields w
  if bits w 23 6 = 0x25 then
    { i with
      imm := bits w 5 16
      op := if bits w 29 2 = 0 then .movn else if bits w 29 2 = 2 then .movz else .movk }
  else if bits w 23 6 = 0x22 then
    { i with
      imm := bits w 10 12 * (if bits w 22 1 = 1 then 2 ^ 12 else 1)
      op := if bits w 29 1 = 1 then .subsImm else if bits w 30 1 = 1 then .subImm else .addImm }
  else if bits w 23 6 = 0x26 then { i with op := if bits w 29 2 = 0 then .sbfm else .ubfm }
  else if bits w 24 5 = 0x0A then
    { i with
      op := if bits w 29 2 = 1 ∧ bits w 21 1 = 0 then if i.rn = 31 then .mov else .orrReg
        else if bits w 29 2 = 0 then .andReg else if bits w 29 2 = 2 then .eorReg else .orrReg }
  else if bits w 24 5 = 0x0B then
    { i with op := if bits w 29 1 = 1 then .subsReg else if bits w 30 1 = 1 then .subReg else .addReg }
  else if bits w 24 5 = 0x1B ∧ bits w 29 2 = 0 then { i with op := if bits w 15 1 = 1 then .msub else .madd }
  else if bits w 21 8 = 0xD6 then
    { i with
      op := match bits w 10 6 with
        | 0x02 => .udiv
        | 0x03 => .sdiv
        | 0x08 => .lslv
        | 0x09 => .lsrv
        | 0x0A => .asrv
        | _ => .unknown }
  else if bits w 21 8 = 0xD4 then
    { i with cond := bits w 12 4, op := if bits w 10 2 = 1 then .csinc else .csel }
  else if bits w 27 3 = 0x7 ∧ bits w 26 1 = 0 ∧ bits w 24 2 = 0x1 then
    { i with
      is64 := bits w 30 2 = 3
      imm := bits w 10 12 * (if bits w 30 2 = 3 then 8 else 4)
      op := if bits w 22 2 = 0 then .strImm else .ldrImm }
  else if bits w 27 3 = 0x5 ∧ bits w 26 1 = 0 then
    { i with
      is64 := bits w 30 2 = 2
      imm := signExtend (bits w 15 7) 7 * (if bits w 30 2 = 2 then 8 else 4)
      op := if bits w 22 1 = 1 then .ldp else .stp }
  else if bits w 25 6 = 0x1A then
    { i with imm := signExtend (bits w 5 19) 19 * 4, op := if bits w 24 1 = 1 then .cbnz else .cbz }
  else if bits w 24 8 = 0x54 then
    { i with cond := bits w 0 4, imm := signExtend (bits w 5 19) 19 * 4, op := .bcond }
  else if bits w 26 6 = 0x05 then { i with imm := signExtend (bits w 0 26) 26 * 4, op := .b }
  else if bits w 26 6 = 0x25 then { i with imm := signExtend (bits w 0 26) 26 * 4, op := .bl }
  else i

/-- `arm64_decode`. -/
def decode (w : BitVec 32) : Inst :=
  let i := rawFields w
  if w = 0xD503201F then { i with op := .nop }
  else if w &&& 0xFFFFFC1F = 0xD61F0000 then { i with op := .br }
  else if w &&& 0xFFFFFC1F = 0xD63F0000 then { i with op := .blr }
  else if w &&& 0xFFFFFC1F = 0xD65F0000 then { i with op := .ret }
  else decodeFields w

/-! ## Words as sums of their fields -/

theorem bits_eq (w : BitVec 32) (lo n : ℕ) : bits w lo n = w.toNat / 2 ^ lo % 2 ^ n := by
  rw [bits, toNat_ushiftRight, Nat.shiftRight_eq_div_pow]

variable {x : ℤ} {mask w : BitVec 32} {lo n : ℕ}

/-- The value of a field. -/
theorem field_toNat (hmask : mask.toNat = 2 ^ n - 1) (h : n + lo ≤ 32) :
    (field x mask lo).toNat = (x % 2 ^ n).toNat * 2 ^ lo := by
  have hlt : (x % 2 ^ n).toNat < 2 ^ n := by
    have := Int.emod_lt_of_pos x (show (0 : ℤ) < 2 ^ n by positivity)
    have hcast : ((2 ^ n : ℕ) : ℤ) = 2 ^ n := by push_cast; rfl
    omega
  have hlow : (BitVec.ofInt 32 x &&& mask).toNat = (x % 2 ^ n).toNat := by
    have hdvd : (2 : ℤ) ^ n ∣ 2 ^ 32 := pow_dvd_pow 2 (by omega)
    rw [toNat_and, hmask, Nat.and_two_pow_sub_one_eq_mod, toNat_ofInt]
    zify
    rw [Int.toNat_of_nonneg (Int.emod_nonneg _ (by positivity)), Int.toNat_of_nonneg (Int.emod_nonneg _ (by positivity))]
    exact_mod_cast Int.emod_emod_of_dvd x hdvd
  have hbound : (x % 2 ^ n).toNat * 2 ^ lo < 2 ^ 32 := by
    calc (x % 2 ^ n).toNat * 2 ^ lo < 2 ^ n * 2 ^ lo := Nat.mul_lt_mul_of_pos_right hlt (Nat.two_pow_pos lo)
      _ = 2 ^ (n + lo) := (pow_add 2 n lo).symm
      _ ≤ 2 ^ 32 := Nat.pow_le_pow_right (by decide) h
  rw [field, toNat_shiftLeft, hlow, Nat.shiftLeft_eq, Nat.mod_eq_of_lt hbound]

/-- Storing into an empty field adds to a word. -/
theorem or_field_toNat (hmask : mask.toNat = 2 ^ n - 1) (h : n + lo ≤ 32) (hw : w.toNat / 2 ^ lo % 2 ^ n = 0) :
    (w ||| field x mask lo).toNat = w.toNat + (x % 2 ^ n).toNat * 2 ^ lo := by
  have hzero : w &&& field x mask lo = 0#32 := by
    apply eq_of_getLsbD_eq
    intro i hi
    have hbit (hin : i - lo < n) (hle : lo ≤ i) : w.toNat.testBit i = false := by
      have htest := congrArg (Nat.testBit · (i - lo)) hw
      simp only [Nat.testBit_mod_two_pow, Nat.testBit_div_two_pow, Nat.zero_testBit, hin, decide_true,
        Bool.true_and] at htest
      rwa [show i - lo + lo = i by omega] at htest
    simp only [getLsbD, field, toNat_and, toNat_shiftLeft, hmask, Nat.testBit_and,
      Nat.testBit_mod_two_pow, Nat.testBit_shiftLeft, Nat.testBit_two_pow_sub_one]
    by_cases hin : i - lo < n
    · by_cases hle : lo ≤ i
      · simp [hbit hin hle]
      · simp [hle]
    · simp [hin]
  rw [← add_eq_or_of_and_eq_zero _ _ hzero, toNat_add_of_and_eq_zero hzero, field_toNat hmask h]

theorem or_unsigned_toNat (hx : 0 ≤ x) (hlt : x < 2 ^ n) (hmask : mask.toNat = 2 ^ n - 1) (h : n + lo ≤ 32)
    (hw : w.toNat / 2 ^ lo % 2 ^ n = 0) : (w ||| field x mask lo).toNat = w.toNat + x.toNat * 2 ^ lo := by
  rw [or_field_toNat hmask h hw, Int.emod_eq_of_lt hx hlt]

/-- A register number. -/
def IsReg (x : ℤ) : Prop := 0 ≤ x ∧ x < 32

theorem or_R5_toNat (hx : IsReg x) (h : 5 + lo ≤ 32) (hw : w.toNat / 2 ^ lo % 2 ^ 5 = 0) :
    (w ||| R5 x lo).toNat = w.toNat + x.toNat * 2 ^ lo :=
  or_unsigned_toNat (n := 5) hx.1 hx.2 rfl h hw

end Mettle.Arm64

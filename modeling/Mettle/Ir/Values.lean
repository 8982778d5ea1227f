import Mettle.Ir.Basic

/-!
# Values

The values of the reference interpreter (`ir_interp.c`) and what the scalar operators do to them.
Integers are 64-bit words; the operations on doubles are those of the host and stay uninterpreted.
-/

namespace Mettle.Ir

/-- `IRInterpValue`. -/
structure Value where
  i : BitVec 64 := 0
  f : BitVec 64 := 0
  isFloat : Bool := false
  undefined : Bool := false
  deriving DecidableEq, Repr, Inhabited

/-- `ii_int_value`. -/
def Value.ofInt (v : BitVec 64) : Value := { i := v }

/-- `ii_float_value`. -/
def Value.ofFloat (v : BitVec 64) : Value := { f := v, isFloat := true }

/-- The integer of a truth value. -/
def Value.ofBool (b : Bool) : Value := .ofInt (if b then 1 else 0)

/-- A value in a condition: `!= 0`. -/
def Value.truth (v : Value) : Bool := if v.isFloat then ¬ doubleEq v.f 0 else v.i ≠ 0

/-- `ii_poison_value`. -/
def Value.poison : Value := { i := 0xA5A5A5A5A5A5A5A5, undefined := true }

/-- The arithmetic of the host on bit patterns of doubles. `single` operations round both operands and
the result to single precision. -/
structure FloatOps where
  add : BitVec 64 → BitVec 64 → BitVec 64
  sub : BitVec 64 → BitVec 64 → BitVec 64
  mul : BitVec 64 → BitVec 64 → BitVec 64
  div : BitVec 64 → BitVec 64 → BitVec 64
  addSingle : BitVec 64 → BitVec 64 → BitVec 64
  subSingle : BitVec 64 → BitVec 64 → BitVec 64
  mulSingle : BitVec 64 → BitVec 64 → BitVec 64
  divSingle : BitVec 64 → BitVec 64 → BitVec 64
  neg : BitVec 64 → BitVec 64
  negSingle : BitVec 64 → BitVec 64
  lt : BitVec 64 → BitVec 64 → Bool
  le : BitVec 64 → BitVec 64 → Bool
  ofInt : BitVec 64 → BitVec 64
  ofUnsigned : BitVec 64 → BitVec 64
  toInt : BitVec 64 → BitVec 64
  toUnsigned : BitVec 64 → BitVec 64
  roundSingle : BitVec 64 → BitVec 64
  roundHalf : BitVec 64 → BitVec 64
  roundBfloat : BitVec 64 → BitVec 64
  add_comm : ∀ a b, add a b = add b a
  mul_comm : ∀ a b, mul a b = mul b a
  addSingle_comm : ∀ a b, addSingle a b = addSingle b a
  mulSingle_comm : ∀ a b, mulSingle a b = mulSingle b a

namespace FloatOps

variable (F : FloatOps)

/-- `ii_as_int`. -/
def asInt (v : Value) : BitVec 64 := if v.isFloat then F.toInt v.f else v.i

/-- `ii_as_float`. -/
def asFloat (v : Value) : BitVec 64 := if v.isFloat then v.f else F.ofInt v.i

/-- The floating-point half of `ii_binary`. -/
def binaryFloat (op : String) (single : Bool) (x y : BitVec 64) : Option Value :=
  if op = "+" then some (.ofFloat (if single then F.addSingle x y else F.add x y))
  else if op = "-" then some (.ofFloat (if single then F.subSingle x y else F.sub x y))
  else if op = "*" then some (.ofFloat (if single then F.mulSingle x y else F.mul x y))
  else if op = "/" then some (.ofFloat (if single then F.divSingle x y else F.div x y))
  else if op = "==" then some (.ofBool (doubleEq x y))
  else if op = "!=" then some (.ofBool (¬ doubleEq x y))
  else if op = "<" then some (.ofBool (F.lt x y))
  else if op = "<=" then some (.ofBool (F.le x y))
  else if op = ">" then some (.ofBool (F.lt y x))
  else if op = ">=" then some (.ofBool (F.le y x))
  else none

end FloatOps

/-- The integer half of `ii_binary`; `none` for a division by zero and for an unknown operator. -/
def binaryInt (op : String) (isUnsigned : Bool) (x y : BitVec 64) : Option Value :=
  if op = "+" then some (.ofInt (x + y))
  else if op = "-" then some (.ofInt (x - y))
  else if op = "*" then some (.ofInt (x * y))
  else if op = "&" then some (.ofInt (x &&& y))
  else if op = "|" then some (.ofInt (x ||| y))
  else if op = "^" then some (.ofInt (x ^^^ y))
  else if op = "<<" then some (.ofInt (x <<< (y.toNat % 64)))
  else if op = ">>" then
    some (.ofInt (if isUnsigned then x >>> (y.toNat % 64) else x.sshiftRight (y.toNat % 64)))
  else if op = "/" ∨ op = "%" then
    if y = 0 then none
    else if ¬ isUnsigned ∧ y = -1 then some (.ofInt (if op = "/" then -x else 0))
    else if isUnsigned then some (.ofInt (if op = "/" then x / y else x % y))
    else some (.ofInt (if op = "/" then x.sdiv y else x.srem y))
  else if op = "==" then some (.ofBool (x = y))
  else if op = "!=" then some (.ofBool (x ≠ y))
  else if op = "<" then some (.ofBool (if isUnsigned then x.ult y else x.slt y))
  else if op = "<=" then some (.ofBool (if isUnsigned then x.ule y else x.sle y))
  else if op = ">" then some (.ofBool (if isUnsigned then y.ult x else y.slt x))
  else if op = ">=" then some (.ofBool (if isUnsigned then y.ule x else y.sle x))
  else if op = "&&" then some (.ofBool (x ≠ 0 ∧ y ≠ 0))
  else if op = "||" then some (.ofBool (x ≠ 0 ∨ y ≠ 0))
  else none

/-- `ii_narrow_int`. -/
def narrowInt (v : BitVec 64) (size : ℤ) (isUnsigned : Bool) : BitVec 64 :=
  if size = 1 then if isUnsigned then (v.truncate 8).zeroExtend 64 else (v.truncate 8).signExtend 64
  else if size = 2 then
    if isUnsigned then (v.truncate 16).zeroExtend 64 else (v.truncate 16).signExtend 64
  else if size = 4 then
    if isUnsigned then (v.truncate 32).zeroExtend 64 else (v.truncate 32).signExtend 64
  else v

/-- A scalar type as the interpreter sees it: bytes of an element, elements, and how they are read. -/
structure Shape where
  elemSize : ℤ
  count : ℕ := 1
  isFloat : Bool := false
  isUnsigned : Bool := false
  deriving DecidableEq, Repr

/-- The scalar names of `ii_parse_local_type`. -/
def scalarShape (name : String) : Option Shape :=
  if name = "int8" then some { elemSize := 1 }
  else if name = "int16" then some { elemSize := 2 }
  else if name = "int32" then some { elemSize := 4 }
  else if name = "int64" then some { elemSize := 8 }
  else if name = "uint8" then some { elemSize := 1, isUnsigned := true }
  else if name = "uint16" then some { elemSize := 2, isUnsigned := true }
  else if name = "uint32" then some { elemSize := 4, isUnsigned := true }
  else if name = "uint64" then some { elemSize := 8, isUnsigned := true }
  else if name = "bool" then some { elemSize := 1, isUnsigned := true }
  else if name = "float32" then some { elemSize := 4, isFloat := true }
  else if name = "float64" then some { elemSize := 8, isFloat := true }
  else if name = "float16" then some { elemSize := 2, isFloat := true }
  else if name = "bfloat16" then some { elemSize := 2, isFloat := true }
  else none

/-- The digits of one dimension: its value, and the text after them. -/
def parseDigits (n : ℕ) : List Char → Option (ℕ × List Char)
  | [] => some (n, [])
  | c :: rest =>
    if c.isDigit then
      let n := n * 10 + (c.toNat - '0'.toNat)
      if 2 ^ 24 < n then none else parseDigits n rest
    else some (n, c :: rest)

/-- The dimensions `[n][m]…` of an array type, multiplied; the fuel is the length of the text. -/
def parseDimensions : ℕ → ℕ → List Char → Option ℕ
  | _, n, [] => some n
  | 0, _, _ :: _ => none
  | fuel + 1, n, c :: rest =>
    if c ≠ '[' ∨ ¬ (rest.head?.any Char.isDigit) then none
    else
      match parseDigits 0 rest with
      | some (dim, ']' :: rest) =>
        if dim = 0 ∨ 2 ^ 24 / dim < n then none else parseDimensions fuel (n * dim) rest
      | _ => none

/-- `ii_parse_local_type`. -/
def parseLocalType (text : Option String) : Option Shape := do
  let text ← text
  let pointer : Shape := { elemSize := 8, isUnsigned := true }
  if text.toList.getLast? = some '*' then some pointer
  else if text.toList.take 3 = ['f', 'n', '('] ∨ text.toList.take 3 = ['F', 'n', '('] then some pointer
  else if text = "cstring" ∨ text = "rawptr" then some pointer
  else
    let base := text.toList.takeWhile (· ≠ '[')
    let dims := text.toList.dropWhile (· ≠ '[')
    if 32 ≤ base.length then none
    else
      let count ← parseDimensions dims.length 1 dims
      let name := String.ofList base
      if name = "cstring" ∨ name = "rawptr" then some { pointer with count := count }
      else (scalarShape name).map fun shape => { shape with count := count }

/-- `ii_mtlc_integer_width`. -/
def MtlcType.integerWidth (t : MtlcType) : Option (ℕ × Bool) :=
  match t.kind with
  | .int8 => some (1, false)
  | .int16 => some (2, false)
  | .int32 => some (4, false)
  | .int64 => some (8, false)
  | .uint8 => some (1, true)
  | .uint16 => some (2, true)
  | .uint32 => some (4, true)
  | .uint64 => some (8, true)
  | _ => none

/-- `ii_scalar_from_mtlc`. -/
def MtlcType.scalar (t : MtlcType) : Option Shape :=
  match t.kind with
  | .bool => some { elemSize := 1, isUnsigned := true }
  | .float32 => some { elemSize := 4, isFloat := true }
  | .float64 => some { elemSize := 8, isFloat := true }
  | .float16 | .bfloat16 => some { elemSize := 2, isFloat := true }
  | .enum => some { elemSize := if t.size = 1 ∨ t.size = 2 ∨ t.size = 8 then t.size else 4 }
  | .pointer | .functionPointer => some { elemSize := 8, isUnsigned := true }
  | _ => t.integerWidth.map fun (size, isUnsigned) => { elemSize := size, isUnsigned := isUnsigned }

/-- `ii_integer_cast_width`. -/
def integerCastWidth (type : String) : Option (ℕ × Bool) :=
  if type = "int8" then some (1, false)
  else if type = "int16" then some (2, false)
  else if type = "int32" then some (4, false)
  else if type = "int64" then some (8, false)
  else if type = "uint8" then some (1, true)
  else if type = "uint16" then some (2, true)
  else if type = "uint32" then some (4, true)
  else if type = "uint64" then some (8, true)
  else none

/-- `ii_cast_target_is_pointer_shaped`. -/
def castTargetIsPointerShaped (type : String) : Bool :=
  type.toList.getLast? = some '*' ∨ type = "cstring" ∨ type = "rawptr" ∨ type = "string" ∨
    type.toList.take 3 = ['f', 'n', '('] ∨ type.toList.take 3 = ['F', 'n', '(']

namespace FloatOps

variable (F : FloatOps)

/-- `ii_cast_source_as_double`. -/
def castSource (isUnsigned : Bool) (v : Value) : BitVec 64 :=
  if ¬ v.isFloat ∧ isUnsigned then F.ofUnsigned v.i else F.asFloat v

/-- `ii_cast_to_integer`; the bounds are `-2^63`, `2^63` and `2^64` as doubles. -/
def castToInteger (v : Value) (size : ℕ) (targetUnsigned : Bool) : BitVec 64 :=
  let x :=
    if ¬ v.isFloat then v.i
    else if size = 8 ∧ targetUnsigned then
      if F.le 0 v.f ∧ F.lt v.f 0x43F0000000000000 then F.toUnsigned v.f else BitVec.intMin 64
    else if F.le 0xC3E0000000000000 v.f ∧ F.lt v.f 0x43E0000000000000 then F.toInt v.f
    else BitVec.intMin 64
  narrowInt x size targetUnsigned

/-- The last part of `ii_cast`, by the declared type of the result. -/
def castDeclared (t : MtlcType) (isUnsigned : Bool) (v : Value) : Option Value :=
  match t.kind with
  | .enum =>
    some (.ofInt (F.castToInteger v (if t.size = 1 ∨ t.size = 2 ∨ t.size = 8 then t.size else 4) false))
  | .pointer | .functionPointer | .string => some (.ofInt (F.asInt v))
  | .float64 => some (.ofFloat (F.castSource isUnsigned v))
  | .float32 => some (.ofFloat (F.roundSingle (F.castSource isUnsigned v)))
  | .bool => some (.ofBool (v.truth))
  | _ => t.integerWidth.map fun (size, target) => .ofInt (F.castToInteger v size target)

/-- `ii_cast`. -/
def cast (type : String) (valueType : Option MtlcType) (isUnsigned : Bool) (v : Value) : Option Value :=
  if castTargetIsPointerShaped type then some (.ofInt (F.asInt v))
  else if type = "float64" then some (.ofFloat (F.castSource isUnsigned v))
  else if type = "float32" then some (.ofFloat (F.roundSingle (F.castSource isUnsigned v)))
  else if type = "float16" then some (.ofFloat (F.roundHalf (F.castSource isUnsigned v)))
  else if type = "bfloat16" then some (.ofFloat (F.roundBfloat (F.castSource isUnsigned v)))
  else
    match integerCastWidth type with
    | some (size, target) => some (.ofInt (F.castToInteger v size target))
    | none =>
      if type = "bool" then some (.ofBool (v.truth))
      else valueType.bind fun t => F.castDeclared t isUnsigned v

/-- `ii_op_unary`, before the flag of undefined values. -/
def unary (op : String) (isFloat single : Bool) (a : Value) : Option Value :=
  if op = "-" then
    if isFloat ∨ a.isFloat then
      some (.ofFloat (if single then F.negSingle (F.asFloat a) else F.neg (F.asFloat a)))
    else some (.ofInt (-a.i))
  else if op = "!" then some (.ofBool (¬ a.truth))
  else if op = "~" then some (.ofInt (~~~(F.asInt a)))
  else if op = "+" then some a
  else none

end FloatOps

end Mettle.Ir

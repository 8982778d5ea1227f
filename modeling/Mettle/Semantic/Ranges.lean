import Mathlib

/-!
# The checker's interval arithmetic

The type checker reasons about integer expressions with ranges of `long long` (`semantic/type_checker_refine.c`).
A range may lack either bound; a value is a word of 64 bits, and the arithmetic of the language wraps.
-/

namespace Mettle.Semantic

/-- `Range`: a missing bound is `has_min` or `has_max` being zero. -/
structure Range where
  min : Option (BitVec 64) := none
  max : Option (BitVec 64) := none
  deriving DecidableEq, Repr

/-- `range_unknown`. -/
def rangeUnknown : Range := {}

/-- `range_exact`. -/
def rangeExact (v : BitVec 64) : Range := ⟨some v, some v⟩

/-! ## Checked arithmetic -/

/-- `add_checked`. -/
def addChecked (a b : BitVec 64) : Option (BitVec 64) := if a.saddOverflow b then none else some (a + b)

/-- `sub_checked`. -/
def subChecked (a b : BitVec 64) : Option (BitVec 64) := if a.ssubOverflow b then none else some (a - b)

/-- `mul_checked`. -/
def mulChecked (a b : BitVec 64) : Option (BitVec 64) := if a.smulOverflow b then none else some (a * b)

/-- `shift_right_floor`. -/
def shiftRightFloor (value : BitVec 64) (bits : ℕ) : BitVec 64 :=
  if bits = 0 then value
  else if (0 : BitVec 64).sle value then value.sshiftRight bits
  else
    let magnitude := -(value + 1) + 1
    let shifted := magnitude >>> bits
    let lost := magnitude &&& (((1 : BitVec 64) <<< bits) - 1)
    if lost ≠ 0 then -(shifted + 1) else -shifted

/-! ## The operators -/

/-- Two bounds, when both are there and the result is in range. -/
def boundOf (op : BitVec 64 → BitVec 64 → Option (BitVec 64)) : Option (BitVec 64) → Option (BitVec 64) →
    Option (BitVec 64)
  | some a, some b => op a b
  | _, _ => none

/-- `range_binary_add`. -/
def rangeBinaryAdd (l r : Range) : Range := ⟨boundOf addChecked l.min r.min, boundOf addChecked l.max r.max⟩

/-- `range_binary_sub`. -/
def rangeBinarySub (l r : Range) : Range := ⟨boundOf subChecked l.min r.max, boundOf subChecked l.max r.min⟩

/-- The loop over the products. -/
def rangeOfProducts (product : BitVec 64) (products : List (BitVec 64)) : Range :=
  let (min, max) := products.foldl
    (fun (min, max) p => (if p.slt min then p else min, if max.slt p then p else max)) (product, product)
  ⟨some min, some max⟩

/-- `range_binary_mul`. -/
def rangeBinaryMul (l r : Range) : Range :=
  match l.min, l.max, r.min, r.max with
  | some lmin, some lmax, some rmin, some rmax =>
    match mulChecked lmin rmin, mulChecked lmin rmax, mulChecked lmax rmin, mulChecked lmax rmax with
    | some p₀, some p₁, some p₂, some p₃ => rangeOfProducts p₀ [p₁, p₂, p₃]
    | _, _, _, _ => rangeUnknown
  | _, _, _, _ => rangeUnknown

/-- `range_binary_modulo`. -/
def rangeBinaryModulo (l r : Range) (haveL : Bool) : Range :=
  match r.min, r.max with
  | some rmin, some rmax =>
    if rmin.sle 0 then rangeUnknown
    else
      ⟨some (if haveL && l.min.any (fun m => (0 : BitVec 64).sle m) then 0 else -(rmax - 1)), some (rmax - 1)⟩
  | _, _ => rangeUnknown

/-- `range_binary_divide`. -/
def rangeBinaryDivide (l r : Range) : Range :=
  match r.min, r.max with
  | some rmin, some rmax =>
    if rmin ≠ rmax ∨ rmin.sle 0 then rangeUnknown
    else ⟨l.min.map fun m => m.sdiv rmin, l.max.map fun m => m.sdiv rmin⟩
  | _, _ => rangeUnknown

/-- `range_constant_mask`. -/
def rangeConstantMask (range : Range) : Option (BitVec 64) :=
  match range.min, range.max with
  | some min, some max => if min ≠ max ∨ min.slt 0 then none else some min
  | _, _ => none

/-- `range_binary_and`. -/
def rangeBinaryAnd (l r : Range) (haveL haveR : Bool) : Range :=
  match (if haveR then rangeConstantMask r else none).orElse
      fun _ => if haveL then rangeConstantMask l else none with
  | some mask => ⟨some 0, some mask⟩
  | none =>
    if !haveL ∨ !haveR ∨ !l.min.any (fun m => (0 : BitVec 64).sle m) ∨
        !r.min.any (fun m => (0 : BitVec 64).sle m) then rangeUnknown
    else
      match l.max, r.max with
      | none, none => rangeUnknown
      | some lmax, some rmax => ⟨some 0, some (if lmax.slt rmax then lmax else rmax)⟩
      | some lmax, none => ⟨some 0, some lmax⟩
      | none, some rmax => ⟨some 0, some rmax⟩

/-- `range_binary_shift_right`. -/
def rangeBinaryShiftRight (l r : Range) : Range :=
  match l.min, r.min, r.max with
  | some lmin, some rmin, some rmax =>
    if rmin ≠ rmax ∨ rmin.slt 0 ∨ (63 : BitVec 64).sle rmin then rangeUnknown
    else ⟨some (shiftRightFloor lmin rmin.toNat), l.max.map fun m => shiftRightFloor m rmin.toNat⟩
  | _, _, _ => rangeUnknown

/-- `range_binary_operator`, on a range that has no bounds yet. -/
def rangeBinaryOperator (op : String) (l r : Range) (haveL haveR : Bool) : Range :=
  let both := haveL && haveR
  if op = "+" ∧ both then rangeBinaryAdd l r
  else if op = "-" ∧ both then rangeBinarySub l r
  else if op = "*" ∧ both then rangeBinaryMul l r
  else if op = "%" ∧ haveR then rangeBinaryModulo l r haveL
  else if op = "/" ∧ both then rangeBinaryDivide l r
  else if op = "&" then rangeBinaryAnd l r haveL haveR
  else if op = ">>" ∧ both then rangeBinaryShiftRight l r
  else rangeUnknown

/-- `range_of_unary`, from what `range_of` says of the operand. -/
def rangeOfUnary (op : String) (have_ : Bool) (inner : Range) : Range :=
  if op = "-" then
    if have_ then
      ⟨inner.max.bind fun m => if (BitVec.intMin 64).slt m then some (-m) else none,
        inner.min.bind fun m => if (BitVec.intMin 64).slt m then some (-m) else none⟩
    else rangeUnknown
  else if op = "!" then ⟨some 0, some 1⟩
  else rangeUnknown

/-! ## Constants -/

/-- A type, as what a value is turned into when it is converted to it. -/
inductive ValueType where
  | int (bits : ℕ) (signed : Bool)
  | bool
  | address
  | float
  deriving DecidableEq, Repr

/-- The value of an integer after a conversion: integers are cut to the width of the type and extended, `bool`
is zero or one, addresses and enumerations keep the word. A float is no integer. -/
def ValueType.convert (v : BitVec 64) : ValueType → Option (BitVec 64)
  | .int bits true => some ((v.setWidth bits).signExtend 64)
  | .int bits false => some ((v.setWidth bits).setWidth 64)
  | .bool => some (if v = 0 then 0 else 1)
  | .address => some v
  | .float => none

/-- What the checker knows of the symbol of an identifier: the value of a constant (`SYMBOL_CONSTANT`, or an
integer `has_constant_value`), the range of a refined type, or nothing. -/
inductive ConstantSymbol where
  | constant (value : BitVec 64)
  | refined (min max : BitVec 64)
  | unknown
  deriving DecidableEq, Repr

/-- An expression, as `constant_range` reads it. The type of a negation is the one it was resolved to. -/
inductive ConstantExpr where
  | numberLiteral (value : BitVec 64) (isFloat : Bool)
  | identifier (name : String)
  | cast (type : ValueType) (operand : ConstantExpr)
  | unary (op : String) (type : ValueType) (operand : ConstantExpr)
  | other

/-- `constant_range`. -/
def constantRange (symbols : String → ConstantSymbol) : ℕ → ConstantExpr → Option Range
  | depth, expr =>
    if 8 < depth then none
    else
      match expr with
      | .numberLiteral value isFloat => if isFloat then none else some (rangeExact value)
      | .identifier name =>
        match symbols name with
        | .constant value => some (rangeExact value)
        | .refined min max => some ⟨some min, some max⟩
        | .unknown => none
      | .cast _ operand => constantRange symbols (depth + 1) operand
      | .unary op _ operand =>
        if op ≠ "-" then none
        else
          match constantRange symbols (depth + 1) operand with
          | some ⟨some min, some _⟩ => if min = BitVec.intMin 64 then none else some (rangeExact (-min))
          | _ => none
      | .other => none

/-! ## What the operators compute -/

/-- The value of a binary operator on words of 64 bits. -/
def evalBinary (op : String) (l r : BitVec 64) : Option (BitVec 64) :=
  if op = "+" then some (l + r)
  else if op = "-" then some (l - r)
  else if op = "*" then some (l * r)
  else if op = "%" then if r = 0 then none else some (l.srem r)
  else if op = "/" then if r = 0 then none else some (l.sdiv r)
  else if op = "&" then some (l &&& r)
  else if op = ">>" then some (l.sshiftRight (r.toNat % 64))
  else none

/-- The value of a unary operator on a word of 64 bits. -/
def evalUnary (op : String) (v : BitVec 64) : Option (BitVec 64) :=
  if op = "-" then some (-v) else if op = "!" then some (if v = 0 then 1 else 0) else none

/-- The values that an expression can have: a variable of a refined type has any value in its range, and the
values of the other expressions are not known. -/
inductive ConstantExpr.HasValue (symbols : String → ConstantSymbol) : ConstantExpr → BitVec 64 → Prop
  | literal (value : BitVec 64) : HasValue symbols (.numberLiteral value false) value
  | constant {name : String} {value : BitVec 64} (h : symbols name = .constant value) :
      HasValue symbols (.identifier name) value
  | refined {name : String} {min max value : BitVec 64} (h : symbols name = .refined min max)
      (hmin : min.toInt ≤ value.toInt) (hmax : value.toInt ≤ max.toInt) : HasValue symbols (.identifier name) value
  | unknown {name : String} (h : symbols name = .unknown) (value : BitVec 64) :
      HasValue symbols (.identifier name) value
  | cast {type : ValueType} {operand : ConstantExpr} {v w : BitVec 64} (h : HasValue symbols operand v)
      (hw : type.convert v = some w) : HasValue symbols (.cast type operand) w
  | unary {op : String} {type : ValueType} {operand : ConstantExpr} {v u w : BitVec 64}
      (h : HasValue symbols operand v) (hu : evalUnary op v = some u) (hw : type.convert u = some w) :
      HasValue symbols (.unary op type operand) w
  | other (value : BitVec 64) : HasValue symbols .other value

end Mettle.Semantic

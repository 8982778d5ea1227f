import Mettle.Lib.Floats

/-!
# Half-precision conversions

The conversions between 32-bit floating-point patterns and the two 16-bit formats (`common.c`), on bit patterns as the
code computes them. The conversion from a double to a float that C provides rounds to the nearest, ties to even.
-/

namespace Mettle.Common

open Mettle.Lib

/-- The loop of `mettle_f16bits_to_f32bits`: the mantissa is shifted until its hidden bit is there. -/
def normalizeHalf : ℕ → BitVec 32 → ℤ → BitVec 32 × ℤ
  | 0, m, e => (m, e)
  | fuel + 1, m, e => if m &&& 0x400#32 = 0#32 then normalizeHalf fuel (m <<< 1) (e - 1) else (m, e)

/-- `mettle_f16bits_to_f32bits`. A mantissa that is not zero has its highest bit after ten shifts at most. -/
def f16bitsToF32bits (h : BitVec 16) : BitVec 32 :=
  let sign := (h.setWidth 32 &&& 0x8000#32) <<< 16
  let exp := (h.setWidth 32 >>> 10) &&& 0x1F#32
  let mant := h.setWidth 32 &&& 0x3FF#32
  if exp = 0#32 then
    if mant = 0#32 then sign
    else
      let (m, e) := normalizeHalf 10 mant (-14)
      let m := m &&& 0x3FF#32
      sign ||| (BitVec.ofInt 32 (e + 127) <<< 23) ||| (m <<< 13)
  else if exp = 31#32 then
    if mant = 0#32 then sign ||| 0x7F800000#32 else sign ||| 0x7FC00000#32 ||| (mant <<< 13)
  else sign ||| ((exp + 112#32) <<< 23) ||| (mant <<< 13)

/-- The part of `mettle_f32bits_to_f16bits` for results below the smallest normal number. -/
def roundSubnormalHalf (mant : BitVec 32) (halfExp : ℤ) : BitVec 32 :=
  let full := mant ||| 0x800000#32
  let shift := (14 - halfExp).toNat
  let keep := full >>> shift
  let mask := if 32 ≤ shift then 0xFFFFFFFF#32 else (1#32 <<< shift) - 1#32
  let dropped := full &&& mask
  let half := 1#32 <<< (shift - 1)
  let keep := if dropped > half ∨ dropped = half ∧ keep &&& 1#32 ≠ 0#32 then keep + 1#32 else keep
  if 1024#32 ≤ keep then 0x0400#32 else keep

/-- The part of `mettle_f32bits_to_f16bits` for normal results, and those that are rounded to infinity. -/
def roundNormalHalf (mant : BitVec 32) (halfExp : ℤ) : BitVec 32 :=
  let dropped := mant &&& 0x1FFF#32
  let keep := mant >>> 13
  let half := 0x1000#32
  if dropped > half ∨ dropped = half ∧ keep &&& 1#32 ≠ 0#32 then
    if 1024#32 ≤ keep + 1#32 then
      if 31 ≤ halfExp + 1 then 0x7C00#32 else BitVec.ofInt 32 (halfExp + 1) <<< 10 ||| 0#32
    else BitVec.ofInt 32 halfExp <<< 10 ||| (keep + 1#32)
  else BitVec.ofInt 32 halfExp <<< 10 ||| keep

/-- `mettle_f32bits_to_f16bits`. -/
def f32bitsToF16bits (u : BitVec 32) : BitVec 16 :=
  let sign := (u >>> 16) &&& 0x8000#32
  let exp := (u >>> 23) &&& 0xFF#32
  let mant := u &&& 0x7FFFFF#32
  if exp = 255#32 then
    if mant = 0#32 then (sign ||| 0x7C00#32).setWidth 16
    else (sign ||| 0x7E00#32 ||| ((mant >>> 13) &&& 0x01FF#32)).setWidth 16
  else if exp = 0#32 then sign.setWidth 16
  else
    let halfExp : ℤ := exp.toNat - 112
    if 31 ≤ halfExp then (sign ||| 0x7C00#32).setWidth 16
    else if halfExp ≤ 0 then
      if halfExp < -10 then sign.setWidth 16 else (sign ||| roundSubnormalHalf mant halfExp).setWidth 16
    else (sign ||| roundNormalHalf mant halfExp).setWidth 16

/-- `mettle_bf16bits_to_f32bits`. -/
def bf16bitsToF32bits (h : BitVec 16) : BitVec 32 := h.setWidth 32 <<< 16

/-- `mettle_f32bits_to_bf16bits`. -/
def f32bitsToBf16bits (u : BitVec 32) : BitVec 16 :=
  let exp := (u >>> 23) &&& 0xFF#32
  let mant := u &&& 0x7FFFFF#32
  if exp = 255#32 then
    if mant = 0#32 then (u >>> 16).setWidth 16
    else (((u >>> 16) &&& 0xFF80#32) ||| 0x0040#32 ||| ((u >>> 16) &&& 0x8000#32)).setWidth 16
  else
    let bias := 0x7FFF#32 + ((u >>> 16) &&& 1#32)
    ((u + bias) >>> 16).setWidth 16

/-- The conversion of a `double` to a `float`, as IEEE arithmetic defines it: infinity and NaN stay what they are, and
everything else is rounded to the nearest. -/
def f64bitsToF32bits (u : BitVec 64) : BitVec 32 :=
  let sign := u.toNat / 2 ^ 63
  let magnitude := u.toNat % 2 ^ 63
  if magnitude < 2047 * 2 ^ 52 then BitVec.ofNat 32 (sign * 2 ^ 31 + narrow 52 23 896 (255 * 2 ^ 23) magnitude)
  else if magnitude = 2047 * 2 ^ 52 then BitVec.ofNat 32 (sign * 2 ^ 31 + 255 * 2 ^ 23)
  else BitVec.ofNat 32 (sign * 2 ^ 31 + (255 * 2 ^ 23 + 2 ^ 22 + magnitude % 2 ^ 52 / 2 ^ 29 % 2 ^ 22))

/-- `mettle_f64bits_to_f16bits`. -/
def f64bitsToF16bits (u : BitVec 64) : BitVec 16 := f32bitsToF16bits (f64bitsToF32bits u)

/-- `mettle_f64bits_to_bf16bits`. -/
def f64bitsToBf16bits (u : BitVec 64) : BitVec 16 := f32bitsToBf16bits (f64bitsToF32bits u)

end Mettle.Common

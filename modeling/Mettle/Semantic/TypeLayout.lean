import Mathlib

/-!
# The layout of struct types

`type_compute_layout` (`semantic/type_layout.c`) gives a struct's fields their byte offsets and bit offsets.
A bit-field shares the storage unit that the one before it has opened when it has the same type and there is
room left. All sums and products are in `size_t`, so they wrap; the bit offsets are stored in 32 bits. The
loop is written over an arithmetic, so that the same loop over unbounded numbers says what the layout would
be without the wrapping.
-/

namespace Mettle.Semantic

/-! ## Types -/

/-- A `Type *`: where the type is in the table of types. -/
abbrev TypeId := ℕ

/-- `TypeKind`, as far as the layout tells the kinds apart. -/
inductive TypeKind where
  | pointer
  | slice
  | array
  | struct
  | string
  | taggedEnum
  | other
  deriving DecidableEq, Repr

/-- A field: `field_types`, `field_bit_widths`, `field_offsets` and `field_bit_offsets` at its index. A type
without the array of bit widths has zeros there. -/
structure Field where
  type : Option TypeId
  bitWidth : BitVec 32 := 0
  byteOffset : ℕ := 0
  bitOffset : ℕ := 0
  deriving DecidableEq, Repr

/-- `Type`, as the layout reads and writes it. -/
structure Ty where
  kind : TypeKind
  size : BitVec 64 := 0
  alignment : BitVec 64 := 0
  baseType : Option TypeId := none
  arraySize : BitVec 64 := 0
  viewRank : BitVec 64 := 0
  fields : List Field := []
  deriving DecidableEq, Repr

abbrev Types := TypeId → Ty

/-! ## The loop over the fields -/

/-- How sums and products of sizes are cut off, and how bit offsets are. -/
structure Arith where
  size : ℕ → ℕ
  bits : ℕ → ℕ

/-- `size_t` and `uint32_t`. -/
def Arith.machine : Arith := ⟨(· % 2 ^ 64), (· % 2 ^ 32)⟩

/-- Numbers without bound. -/
def Arith.unbounded : Arith := ⟨id, id⟩

/-- `align_up`. -/
def alignUp (ar : Arith) (value alignment : ℕ) : ℕ :=
  if alignment ≤ 1 then value
  else
    let rem := value % alignment
    if rem ≠ 0 then ar.size (value + (alignment - rem)) else value

/-- The locals of `compute_struct_layout`. -/
structure LayoutState where
  offset : ℕ := 0
  maxAlign : ℕ := 1
  unitEnd : ℕ := 0
  unitBits : ℕ := 0
  unitUsed : ℕ := 0
  unitType : Option TypeId := none
  deriving DecidableEq, Repr

section

variable (ar : Arith) (types : Types)

/-- `field_align`. -/
def fieldAlign (f : Field) : ℕ :=
  match f.type with
  | some t => if (types t).alignment ≠ 0 then (types t).alignment.toNat else 1
  | none => 1

/-- `field_size`. -/
def fieldSize (f : Field) : ℕ :=
  match f.type with
  | some t => (types t).size.toNat
  | none => 0

/-- Where the next plain field or storage unit starts. -/
def LayoutState.next (s : LayoutState) (f : Field) : ℕ :=
  alignUp ar (if s.unitEnd < s.offset then s.offset else s.unitEnd) (fieldAlign types f)

/-- `new_unit`. -/
def LayoutState.newUnit (s : LayoutState) (f : Field) : Bool :=
  s.unitType = none ∨ s.unitType ≠ f.type ∨
    ar.size (fieldSize types f * 8) < ar.size (s.unitUsed + f.bitWidth.toNat)

/-- `max_align` after a field. -/
def LayoutState.raiseAlign (s : LayoutState) (f : Field) : ℕ :=
  if s.maxAlign < fieldAlign types f then fieldAlign types f else s.maxAlign

/-- A field without a width. -/
def LayoutState.placePlain (s : LayoutState) (f : Field) : LayoutState × Field :=
  let offset := s.next ar types f
  let stop := ar.size (offset + fieldSize types f)
  ({ offset := stop, maxAlign := s.raiseAlign types f, unitEnd := stop, unitBits := 0, unitUsed := 0,
     unitType := none },
   { f with byteOffset := offset, bitOffset := 0 })

/-- The storage unit a bit-field goes to: a new one, or the open one. -/
def LayoutState.openUnit (s : LayoutState) (f : Field) : LayoutState :=
  if s.newUnit ar types f then
    let offset := s.next ar types f
    { offset, maxAlign := s.raiseAlign types f, unitEnd := ar.size (offset + fieldSize types f)
      unitBits := ar.size (fieldSize types f * 8), unitUsed := 0, unitType := f.type }
  else { s with maxAlign := s.raiseAlign types f }

/-- The bits of a bit-field in the open unit; a full unit is closed. -/
def LayoutState.takeBits (s : LayoutState) (f : Field) : LayoutState × Field :=
  let used := ar.size (s.unitUsed + f.bitWidth.toNat)
  (if used = s.unitBits then { s with offset := s.unitEnd, unitType := none, unitUsed := 0 }
   else { s with unitUsed := used },
   { f with byteOffset := s.offset, bitOffset := ar.bits s.unitUsed })

/-- The body of the loop of `compute_struct_layout`. -/
def LayoutState.step (s : LayoutState) (f : Field) : Option (LayoutState × Field) :=
  if f.bitWidth = 0 then some (s.placePlain ar types f)
  else
    let storageBits := ar.size (fieldSize types f * 8)
    if storageBits = 0 ∨ storageBits < f.bitWidth.toNat then none
    else some ((s.openUnit ar types f).takeBits ar f)

/-- The loop of `compute_struct_layout`: the fields done so far, and the fields to come. -/
def layoutFrom (s : LayoutState) (done : List Field) : List Field → Option (LayoutState × List Field)
  | [] => some (s, done)
  | f :: fields => (s.step ar types f).bind fun (s, placed) => layoutFrom s (done ++ [placed]) fields

end

/-- The end of the last unit. -/
def LayoutState.stop (s : LayoutState) : ℕ := if s.unitType = none then s.offset else s.unitEnd

/-- The size of the struct. -/
def LayoutState.total (ar : Arith) (s : LayoutState) : ℕ := alignUp ar s.stop s.maxAlign

/-- `compute_struct_layout`. -/
def computeStructLayout (types : Types) (type : Ty) : Option Ty :=
  (layoutFrom .machine types {} [] type.fields).map fun (s, fields) =>
    { type with
      fields
      size := BitVec.ofNat 64 (s.total .machine)
      alignment := if s.maxAlign ≠ 0 then BitVec.ofNat 64 s.maxAlign else 1 }

/-- `type_view_rank`. -/
def typeViewRank (type : Ty) : BitVec 64 :=
  if type.kind ≠ .slice then 0 else if 1 < type.viewRank then type.viewRank else 1

/-- `type_compute_layout`, to a depth of nested array types. -/
def typeComputeLayout : ℕ → Types → TypeId → Option Types
  | 0, _, _ => none
  | depth + 1, types, id =>
    let type := types id
    match type.kind with
    | .pointer => some (Function.update types id { type with size := 8, alignment := 8 })
    | .slice => some (Function.update types id { type with size := 16 * typeViewRank type, alignment := 8 })
    | .array =>
      type.baseType.bind fun base =>
        (typeComputeLayout depth types base).bind fun types =>
          let baseType := types base
          if 0 < baseType.size ∧ BitVec.allOnes 64 / baseType.size < type.arraySize then none
          else
            some (Function.update types id { types id with
              size := baseType.size * type.arraySize
              alignment := if baseType.alignment ≠ 0 then baseType.alignment else 1 })
    | .struct | .string => (computeStructLayout types type).map (Function.update types id)
    | .taggedEnum => if 0 < type.size then some types else none
    | .other => some types

end Mettle.Semantic

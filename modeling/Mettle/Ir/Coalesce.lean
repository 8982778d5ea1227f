import Mettle.Ir.Straight

/-!
# Coalescing of temporaries with one use

`ir_coalesce_single_use_temp_assign_pass` of `ir_optimize_scalar_simplify.c`: the producer of a
temporary writes what the temporary is assigned to, two integer casts become one, and a narrow unsigned
cast is absorbed by the load that feeds it. The use counts are taken once, before the first rewrite.
-/

open List BitVec

namespace Mettle.Ir

/-- `ir_op_reads_destination`. -/
def Opcode.readsDestination : Opcode → Bool
  | .store | .memcpyInline | .simdCopy | .countWordStarts | .simdSumI32 | .simdSumU8 | .simdByteMap
  | .simdFill | .simdMatmulN32 | .simdInsertionSortI32 | .simdDotI32 | .simdDotI8 | .simdSlpMacI32
  | .simdSlpMacI8 | .simdScaleI32 | .simdClampI32 | .simdReverseCopyI32 | .lowerBoundI32
  | .prefixSumI32 | .simdMinmaxI32 | .simdSumF64 | .simdSumF32 | .simdDotF64 | .simdDotF32
  | .simdAffineMapF64 | .simdAffineMapF32 | .simdExpF32 | .simdSiluF32 | .simdI2fReduceF64
  | .simdVloopF64 | .simdVloopI32 | .simdFind | .simdOuterLaneF64 => true
  | _ => false

/-- `ir_op_reads_side_operands`. -/
def Opcode.readsSideOperands (op : Opcode) : Bool :=
  op.readsDestination ||
    op ∈ ([.assign, .addressOf, .load, .binary, .unary, .cast, .new, .branchZero, .branchEq, .call,
      .callIndirect, .prefetch, .return, .select] : List Opcode)

/-- `ir_collect_instruction_temp_uses`: the temporaries an instruction counts as used, each as often as
it counts it. -/
def Inst.tempUses (i : Inst) : List String :=
  ((if i.op.readsSideOperands then
      (if i.op.readsDestination then [i.dest] else []) ++ [i.lhs, i.rhs]
    else []) ++ i.arguments).filterMap fun o => if o.kind = .temp then o.name else none

/-- `ir_temp_use_map_get` after the counting loop. -/
def Function.tempUseCount (fn : Function) (t : String) : ℕ :=
  (fn.instructions.flatMap Inst.tempUses).count t

/-- `ir_instruction_make_nop`. -/
def Inst.makeNop (i : Inst) : Inst :=
  { i with op := .nop, dest := {}, lhs := {}, rhs := {}, text := none, arguments := [], isFloat := false }

/-- `ir_builtin_integer_type_info`: the size in bytes and whether the type is unsigned. -/
def builtinIntegerTypeInfo (name : String) : Option (ℕ × Bool) :=
  if name = "int8" then some (1, false)
  else if name = "uint8" then some (1, true)
  else if name = "int16" then some (2, false)
  else if name = "uint16" then some (2, true)
  else if name = "int32" then some (4, false)
  else if name = "uint32" then some (4, true)
  else if name = "int64" then some (8, false)
  else if name = "uint64" then some (8, true)
  else none

/-- `ir_instruction_writes_destination`; the table is that of `ir_instruction_writes_symbol`. -/
def Inst.writesDestination (i : Inst) : Bool := i.dest.kind ≠ .none ∧ Inst.opWritesSymbol i.op

/-- The precision a float instruction works in. -/
def Inst.precision (i : Inst) : ℕ := if i.floatBits = 32 then 32 else 64

namespace Function

/-- Replace an instruction. -/
def setInsn (fn : Function) (k : ℕ) (i : Inst) : Function :=
  { fn with instructions := fn.instructions.set k i }

/-- The last instruction before an index that is not a `NOP`. -/
def lastBefore (fn : Function) : ℕ → Option ℕ
  | 0 => none
  | k + 1 => if (fn.insn k).op = .nop then fn.lastBefore k else some k

/-- `ir_find_temp_producer_index_in_current_block`. -/
def findTempProducer (fn : Function) (t : String) : ℕ → Option ℕ
  | 0 => none
  | k + 1 =>
    if (fn.insn k).op = .nop then fn.findTempProducer t k
    else if (fn.insn k).op = .label then none
    else if (fn.insn k).writesTemp ∧ (fn.insn k).dest.name = some t then some k
    else fn.findTempProducer t k

variable (uses : String → ℕ) (fn : Function)

/-- The producer that the loop over assignments forwards into the assignment at an index. -/
def assignProducer (index : ℕ) : Option ℕ := do
  let i := fn.insn index
  let t ← i.lhs.name
  guard (i.op = .assign ∧ i.lhs.kind = .temp ∧ i.dest.kind ≠ .none ∧ uses t = 1)
  let k ← fn.lastBefore index
  let p := fn.insn k
  guard (p.writesDestination ∧ p.dest.kind = .temp ∧ p.dest.name = some t)
  guard (i.isFloat → p.isFloat ∧ p.precision = i.precision)
  some k

/-- Forward a producer into the instruction that consumes its temporary. -/
def forward (producer index : ℕ) : Function :=
  (fn.setInsn producer { fn.insn producer with dest := (fn.insn index).dest }).setInsn index
    (fn.insn index).makeNop

/-- The temporary, the size and the sign of an integer cast that the last two loops look at. -/
def castOfTemp (index : ℕ) : Option (String × ℕ × Bool) := do
  let i := fn.insn index
  let t ← i.lhs.name
  guard (i.op = .cast ∧ i.isFloat = false ∧ i.lhs.kind = .temp ∧ uses t = 1)
  let (size, isUnsigned) ← i.text.bind builtinIntegerTypeInfo
  some (t, size, isUnsigned)

/-- The cast that `ir_try_compose_single_use_cast` composes the cast at an index with, and the type of
the result. -/
def composedCast (index : ℕ) : Option (ℕ × Option String) := do
  let (t, castSize, _) ← fn.castOfTemp uses index
  let k ← fn.findTempProducer t index
  let p := fn.insn k
  guard (p.op = .cast ∧ p.isFloat = false)
  let (producerSize, producerUnsigned) ← p.text.bind builtinIntegerTypeInfo
  guard ¬ (producerSize < castSize ∧ producerSize = 4 ∧ ¬ producerUnsigned)
  some (k, if castSize ≤ producerSize then (fn.insn index).text else p.text)

/-- `ir_try_compose_single_use_cast`, once it has found the producer. -/
def compose (producer index : ℕ) (type : Option String) : Function :=
  (fn.setInsn index { fn.insn index with lhs := (fn.insn producer).lhs, text := type }).setInsn producer
    (fn.insn producer).makeNop

/-- The load that `ir_try_coalesce_unsigned_load_cast` lets absorb the cast at an index. -/
def absorbingLoad (index : ℕ) : Option ℕ := do
  let (t, size, isUnsigned) ← fn.castOfTemp uses index
  guard (isUnsigned ∧ size ≤ 2)
  let k ← fn.findTempProducer t index
  let p := fn.insn k
  guard (p.op = .load ∧ p.isFloat = false ∧ p.rhs.kind = .int ∧ p.rhs.intValue = BitVec.ofNat 64 size)
  some k

/-- The three rewrites at an index; the function as it is where a rewrite does not apply. -/
def coalesceAssignAt (index : ℕ) : Function :=
  ((fn.assignProducer uses index).map (fn.forward · index)).getD fn

@[inherit_doc coalesceAssignAt]
def composeCastAt (index : ℕ) : Function :=
  ((fn.composedCast uses index).map fun r => fn.compose r.1 index r.2).getD fn

@[inherit_doc coalesceAssignAt]
def absorbCastAt (index : ℕ) : Function :=
  ((fn.absorbingLoad uses index).map (fn.forward · index)).getD fn

/-- The indices of the loops. -/
def indices : List ℕ := (List.range fn.instructions.length).drop 1

/-- `ir_coalesce_single_use_temp_assign_pass`. -/
def coalescePass : Function :=
  let uses := fn.tempUseCount
  fn.indices.foldl (absorbCastAt uses)
    (fn.indices.foldl (composeCastAt uses) (fn.indices.foldl (coalesceAssignAt uses) fn))

end Function

/-!
## Composition of integer casts

When one cast of an integer does the work of two. The pass keeps the narrower type, which is right
unless a signed type is widened to an unsigned one that is still narrower than a word.
-/

/-- The sizes of the integer types. -/
def integerSizes : List ℕ := [1, 2, 4, 8]

variable {i size : ℕ} {type : String} {u : Bool}

/-- The bits of a word that is cut and extended with its sign. -/
theorem getLsbD_signExtend_setWidth {k : ℕ} (hk : 0 < k) (x : BitVec 64) (hi : i < 64) :
    ((x.truncate k).signExtend 64).getLsbD i = if i < k then x.getLsbD i else x.getLsbD (k - 1) := by
  rw [getLsbD_signExtend, msb_eq_getLsbD_last, truncate_eq_setWidth,
    getLsbD_setWidth, getLsbD_setWidth, decide_eq_true hi,
    decide_eq_true (show k - 1 < k by omega)]
  by_cases hik : i < k
  · rw [if_pos hik, if_pos hik, decide_eq_true hik]
    rfl
  · rw [if_neg hik, if_neg hik]
    rfl

/-- The bits of a narrowed word. -/
theorem getLsbD_narrowInt (hsize : size ∈ integerSizes) (isUnsigned : Bool) (x : BitVec 64) (hi : i < 64) :
    (narrowInt x size isUnsigned).getLsbD i =
      if i < 8 * size then x.getLsbD i else !isUnsigned && x.getLsbD (8 * size - 1) := by
  simp only [integerSizes, mem_cons, not_mem_nil, or_false] at hsize
  rcases hsize with rfl | rfl | rfl | rfl <;> cases isUnsigned
  case inl.false => exact getLsbD_signExtend_setWidth (by omega) x hi
  case inr.inl.false => exact getLsbD_signExtend_setWidth (by omega) x hi
  case inr.inr.inl.false => exact getLsbD_signExtend_setWidth (by omega) x hi
  all_goals simp [narrowInt, getLsbD_setWidth, hi]

/-- A sign that the outer cast would lose: the pass must not leave such a cast out. -/
def castLosesSign (s₁ : ℕ) (u₁ : Bool) (s₂ : ℕ) (u₂ : Bool) : Bool :=
  s₁ < s₂ ∧ s₂ < 8 ∧ u₁ = false ∧ u₂ = true

/-- Two narrowings are one when no sign is lost. -/
theorem narrowInt_narrowInt {s₁ s₂ : ℕ} (h₁ : s₁ ∈ integerSizes) (h₂ : s₂ ∈ integerSizes) {u₁ u₂ : Bool}
    (h : castLosesSign s₁ u₁ s₂ u₂ = false) (x : BitVec 64) :
    narrowInt (narrowInt x s₁ u₁) s₂ u₂ =
      if s₂ ≤ s₁ then narrowInt x s₂ u₂ else narrowInt x s₁ u₁ := by
  have hs₂ : 1 ≤ s₂ ∧ s₂ ≤ 8 := by
    simp only [integerSizes, mem_cons, not_mem_nil, or_false] at h₂
    omega
  apply eq_of_getLsbD_eq
  intro i hi
  rw [apply_ite (getLsbD · i), getLsbD_narrowInt h₂ u₂ _ hi, getLsbD_narrowInt h₁ u₁ x hi,
    getLsbD_narrowInt h₂ u₂ x hi, getLsbD_narrowInt h₁ u₁ x (by omega)]
  by_cases hle : s₂ ≤ s₁
  · -- the outer cast keeps no more than the inner one
    rw [if_pos hle, if_pos (show 8 * s₂ - 1 < 8 * s₁ by omega)]
    by_cases hbit : i < 8 * s₂
    · rw [if_pos hbit, if_pos hbit, if_pos (show i < 8 * s₁ by omega)]
    · rw [if_neg hbit, if_neg hbit]
  · rw [if_neg hle, if_neg (show ¬ 8 * s₂ - 1 < 8 * s₁ by omega)]
    by_cases hbit : i < 8 * s₂
    · rw [if_pos hbit]
    · -- above the outer type only the sign of the inner one is left
      rw [if_neg hbit, if_neg (show ¬ i < 8 * s₁ by omega)]
      have hsign : u₂ = true → u₁ = true := by
        intro hu₂
        by_contra hu₁
        simp [castLosesSign, hu₂, hu₁] at h
        omega
      cases u₂ <;> cases u₁ <;> simp_all

/-! ## Casts of values -/

/-- Both tables of integer types have the same widths. -/
theorem builtinIntegerTypeInfo_eq (type : String) : builtinIntegerTypeInfo type = integerCastWidth type := by
  unfold builtinIntegerTypeInfo integerCastWidth
  split_ifs <;> simp_all

/-- The widths are those of the integers. -/
theorem integerCastWidth_size (h : integerCastWidth type = some (size, u)) : size ∈ integerSizes := by
  unfold integerCastWidth at h
  unfold integerSizes
  split_ifs at h <;> simp_all

/-- A type with a width is no pointer and no float. -/
theorem integerCastWidth_named {r : ℕ × Bool} (h : integerCastWidth type = some r) :
    castTargetIsPointerShaped type = false ∧ type ≠ "float64" ∧ type ≠ "float32" ∧ type ≠ "float16" ∧
      type ≠ "bfloat16" := by
  unfold integerCastWidth at h
  split_ifs at h <;> subst_vars <;> decide

/-- A cast of an integer to an integer type. -/
theorem FloatOps.cast_integer {F : FloatOps} (h : integerCastWidth type = some (size, u)) {v : Value}
    (hv : v.isFloat = false) (valueType : Option MtlcType) (isUnsigned : Bool) :
    F.cast type valueType isUnsigned v = some (.ofInt (narrowInt v.i size u)) := by
  obtain ⟨hpointer, h64, h32, h16, hb16⟩ := integerCastWidth_named h
  simp only [FloatOps.cast, hpointer, Bool.false_eq_true, if_false, h64, h32, h16, hb16, h,
    FloatOps.castToInteger, hv, not_false_iff, if_true]

end Mettle.Ir

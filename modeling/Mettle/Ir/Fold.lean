import Mettle.Ir.Coalesce
import Mettle.Ir.Cse
import Mettle.Ir.Words

/-!
# Folding of constant operations

`ir_cp_fold_constant_binary` replaces an integer operation on two known constants by the assignment of
the result. Its evaluator and the interpreter's agree on every operation it folds; a result for a
temporary is then wrapped to the type of the instruction, one for a local to the type of the local.
-/

open List Option
open BitVec hiding not_not not_or

namespace Mettle.Ir

/-- `ir_function_local_declared_type`. -/
def Function.localDeclaredType (fn : Function) (x : String) : Option String :=
  (fn.instructions.find? fun i =>
    i.op = .declareLocal ∧ i.text.isSome ∧ i.dest.kind = .symbol ∧ i.dest.name = some x).bind (·.text)

/-- `ir_cp_operand_constant`; the maps hold what is known of temporaries and of symbols. -/
def operandConstant (tempMap symbolMap : String → Option Operand) (o : Operand) : Option (BitVec 64) :=
  if o.kind = .int then some o.intValue
  else
    let known :=
      if o.kind = .temp then o.name.bind tempMap
      else if o.kind = .symbol then o.name.bind symbolMap
      else none
    known.bind fun v => if v.kind = .int then some v.intValue else none

/-- `ir_narrow_folded`. -/
def narrowFolded (type : Option MtlcType) (value : BitVec 64) : BitVec 64 :=
  match type.map MtlcType.kind with
  | some .int8 => narrowInt value 1 false
  | some .int16 => narrowInt value 2 false
  | some .int32 => narrowInt value 4 false
  | some .uint8 => narrowInt value 1 true
  | some .uint16 => narrowInt value 2 true
  | some .uint32 => narrowInt value 4 true
  | some .bool => if value ≠ 0 then 1 else 0
  | _ => value

/-- `ir_declared_integer_width`: the bits to wrap to, `0` for none. -/
def declaredIntegerWidth (type : String) : Option (ℕ × Bool) :=
  if type = "int64" then some (0, false)
  else if type = "uint64" then some (0, true)
  else if type = "int32" then some (32, false)
  else if type = "uint32" then some (32, true)
  else if type = "int16" then some (16, false)
  else if type = "uint16" then some (16, true)
  else if type = "int8" then some (8, false)
  else if type = "uint8" then some (8, true)
  else if type = "bool" then some (8, true)
  else none

/-- `ir_try_evaluate_integer_binary`, `none` where it does not fold. -/
def evaluateIntegerBinary (op : String) (lhs rhs : BitVec 64) : Option (BitVec 64) :=
  let truth (b : Bool) : BitVec 64 := if b then 1 else 0
  if op = "+" then some (lhs + rhs)
  else if op = "-" then some (lhs - rhs)
  else if op = "*" then some (lhs * rhs)
  else if op = "/" then
    if rhs = 0 then none else if rhs = -1 then some (0 - lhs) else some (lhs.sdiv rhs)
  else if op = "%" then
    if rhs = 0 then none else if rhs = -1 then some 0 else some (lhs.srem rhs)
  else if op = "==" then some (truth (lhs = rhs))
  else if op = "!=" then some (truth (lhs ≠ rhs))
  else if op = "<" then some (truth (lhs.slt rhs))
  else if op = "<=" then some (truth (lhs.sle rhs))
  else if op = ">" then some (truth (rhs.slt lhs))
  else if op = ">=" then some (truth (rhs.sle lhs))
  else if op = "&&" then some (truth (lhs ≠ 0 ∧ rhs ≠ 0))
  else if op = "||" then some (truth (lhs ≠ 0 ∨ rhs ≠ 0))
  else if op = "&" then some (lhs &&& rhs)
  else if op = "|" then some (lhs ||| rhs)
  else if op = "^" then some (lhs ^^^ rhs)
  else if op = "<<" then
    if rhs.slt 0 ∨ BitVec.sle 64 rhs then none else some (lhs <<< rhs.toNat)
  else if op = ">>" then
    if rhs.slt 0 ∨ BitVec.sle 64 rhs then none else some (lhs.sshiftRight rhs.toNat)
  else none

/-- The operators that give a truth value of two words. -/
def isCompare (op : String) : Bool := op ∈ ["==", "!=", "<", "<=", ">", ">="]

/-- The operators whose result depends on the sign of the operands. -/
def isSignSensitive (op : String) : Bool := op ∈ [">>", "/", "%", "<", "<=", ">", ">="]

/-- The wrapping of a result to the bits of a local: a shift up and a shift down. -/
def wrapFolded (bits : ℕ) (isUnsigned : Bool) (result : BitVec 64) : BitVec 64 :=
  if 0 < bits then
    if isUnsigned then (result <<< (64 - bits)) >>> (64 - bits)
    else (result <<< (64 - bits)).sshiftRight (64 - bits)
  else result

/-- The width to which the destination wraps; `none` where nothing is folded. -/
def Function.foldWidth (fn : Function) (dest : Operand) (op : String) : Option (ℕ × Bool) :=
  if dest.kind = .symbol ∧ ¬ isCompare op then
    (dest.name.bind fn.localDeclaredType).bind declaredIntegerWidth
  else some (0, false)

/-- `ir_cp_fold_constant_binary`. -/
def Function.foldConstantBinary (fn : Function) (tempMap symbolMap : String → Option Operand) (i : Inst) :
    Inst :=
  if i.op ≠ .binary ∨ i.isFloat then i
  else
    match i.text, operandConstant tempMap symbolMap i.lhs, operandConstant tempMap symbolMap i.rhs with
    | some op, some lhs, some rhs =>
      if i.isUnsigned ∧ isSignSensitive op then i
      else
        match fn.foldWidth i.dest op with
        | none => i
        | some (narrowBits, narrowUnsigned) =>
          if narrowUnsigned ∧ isSignSensitive op then i
          else
            match evaluateIntegerBinary op lhs rhs with
            | none => i
            | some result =>
              let result := wrapFolded narrowBits narrowUnsigned result
              let result :=
                if narrowBits = 0 ∧ i.dest.kind ≠ .symbol then narrowFolded i.valueType result else result
              i.rewriteToAssignOperand (.ofInt result)
    | _, _, _ => i

/-! ## The two evaluators -/

/-- The operators the folder knows. -/
def foldedOps : List String :=
  ["+", "-", "*", "/", "%", "==", "!=", "<", "<=", ">", ">=", "&&", "||", "&", "|", "^", "<<", ">>"]

variable {op type x : String} {lhs rhs result : BitVec 64} {isUnsigned : Bool} {bits : ℕ}

theorem evaluate_mem (h : evaluateIntegerBinary op lhs rhs = some result) : op ∈ foldedOps := by
  by_contra hno
  simp only [foldedOps, mem_cons, not_mem_nil, or_false, not_or] at hno
  simp only [evaluateIntegerBinary, hno, if_false] at h
  cases h

/-- A shift count that is folded. -/
theorem toNat_lt_of_shift (h : ¬ (rhs.slt 0 ∨ BitVec.sle 64 rhs)) : rhs.toNat < 64 := by
  rw [not_or, slt_iff_toInt_lt, sle_iff_toInt_le, toInt_eq_toNat_cond] at h
  have hzero : (0 : BitVec 64).toInt = 0 := rfl
  have hsixty : (64 : BitVec 64).toInt = 64 := rfl
  split at h <;> omega

/-- Where the folder evaluates an operation of either signedness, the interpreter computes the same word and
does not trap. -/
theorem binaryInt_of_evaluate (h : evaluateIntegerBinary op lhs rhs = some result)
    (hsign : ¬ (isUnsigned ∧ isSignSensitive op)) : binaryInt op isUnsigned lhs rhs = some (.ofInt result) := by
  have hop := evaluate_mem h
  simp only [foldedOps, mem_cons, not_mem_nil, or_false] at hop
  rcases hop with rfl | rfl | rfl | rfl | rfl | rfl | rfl | rfl | rfl | rfl | rfl | rfl | rfl | rfl | rfl |
    rfl | rfl | rfl
  case inr.inr.inr.inl | inr.inr.inr.inr.inl =>
    simp only [isSignSensitive, mem_cons, String.reduceEq, or_true, true_or, decide_true, and_true,
      Bool.not_eq_true] at hsign
    simp only [evaluateIntegerBinary, String.reduceEq, if_false, if_true] at h
    split_ifs at h with hzero hminus
    · cases h
      simp [binaryInt, hsign, hminus]
    · cases h
      simpa [binaryInt, hsign] using ⟨hzero, fun hm => absurd hm hminus⟩
  case inr.inr.inr.inr.inr.inr.inr.inr.inr.inr.inr.inr.inr.inr.inr.inr.inl =>
    simp only [evaluateIntegerBinary, String.reduceEq, if_false, if_true] at h
    split_ifs at h with hshift
    cases h
    have hcount := Nat.mod_eq_of_lt (toNat_lt_of_shift hshift)
    simp [binaryInt, hcount]
  case inr.inr.inr.inr.inr.inr.inr.inr.inr.inr.inr.inr.inr.inr.inr.inr.inr =>
    have hsigned : isUnsigned = false := by simpa [isSignSensitive] using hsign
    simp only [evaluateIntegerBinary, String.reduceEq, if_false, if_true] at h
    split_ifs at h with hshift
    cases h
    have hcount := Nat.mod_eq_of_lt (toNat_lt_of_shift hshift)
    simp [binaryInt, hcount, hsigned]
  all_goals
    simp only [evaluateIntegerBinary, String.reduceEq, if_false, if_true, some.injEq] at h
    simp_all [binaryInt, isSignSensitive, Value.ofBool]

/-! ## Wrapping -/

/-- Shifting up and down again wraps as the interpreter does. -/
theorem wrapFolded_eq_narrowInt {size : ℕ} (hsize : size ∈ [1, 2, 4]) (isUnsigned : Bool) (x : BitVec 64) :
    wrapFolded (8 * size) isUnsigned x = narrowInt x size isUnsigned := by
  have hmem : size ∈ integerSizes := by
    simp only [integerSizes, mem_cons, not_mem_nil, or_false] at hsize ⊢
    omega
  have hle : 1 ≤ size ∧ size ≤ 4 := by
    simp only [mem_cons, not_mem_nil, or_false] at hsize
    omega
  -- the bits of the word after the shift up
  have hup : ∀ j < 64, 64 - 8 * size ≤ j →
      (x <<< (64 - 8 * size)).getLsbD j = x.getLsbD (j - (64 - 8 * size)) := by
    intro j hj hge
    rw [getLsbD_shiftLeft, decide_eq_true hj, decide_eq_false (not_lt.mpr hge)]
    rfl
  apply eq_of_getLsbD_eq
  intro i hi
  rw [getLsbD_narrowInt hmem isUnsigned x hi, wrapFolded, if_pos (by omega)]
  cases isUnsigned with
  | true =>
    rw [if_pos rfl, getLsbD_ushiftRight]
    by_cases hbit : i < 8 * size
    · rw [if_pos hbit, hup _ (by omega) (by omega), Nat.add_sub_cancel_left]
    · rw [if_neg hbit, getLsbD_of_ge _ _ (by omega)]
      rfl
  | false =>
    rw [if_neg Bool.false_ne_true, getLsbD_sshiftRight, decide_eq_false (not_le.mpr hi)]
    by_cases hbit : i < 8 * size
    · rw [if_pos hbit, if_pos (by omega), hup _ (by omega) (by omega), Nat.add_sub_cancel_left]
      rfl
    · rw [if_neg hbit, if_neg (by omega), msb_eq_getLsbD_last, hup _ (by omega) (by omega),
        show 64 - 1 - (64 - 8 * size) = 8 * size - 1 by omega]

/-! ## The rewritten instruction -/

/-- The variable of a local is as wide as its declaration says. -/
def Var.Declared (var : Var) (type : String) : Prop :=
  ∀ bits isUnsigned, declaredIntegerWidth type = some (bits, isUnsigned) →
    var.size = (if bits = 0 then 8 else bits / 8 : ℕ) ∧ var.isUnsigned = isUnsigned

variable {W : Type} {H : Host W} {fn : Function} {s : State W} {i : Inst}

/-- A declared width is the one the machine gives the variable. -/
theorem parseLocalType_of_width (h : declaredIntegerWidth type = some (bits, isUnsigned)) :
    parseLocalType (some type) = some { elemSize := (if bits = 0 then 8 else bits / 8 : ℕ), isUnsigned } := by
  unfold declaredIntegerWidth at h
  split_ifs at h with h1 h2 h3 h4 h5 h6 h7 h8 h9
  all_goals
    obtain ⟨rfl, rfl⟩ := h
    subst_vars
    decide

/-- The declaration of a local makes a variable of its width. -/
theorem declaredVar_declared {var : Var} (htype : i.text = some type) (h : H.declaredVar fn i x = some var) :
    var.Declared type := by
  intro bits isUnsigned hwidth
  rw [Host.declaredVar, htype, parseLocalType_of_width hwidth] at h
  generalize (if bits = 0 then 8 else bits / 8 : ℕ) = size at h ⊢
  split at h
  · cases h
  · rw [some_or, bind_some] at h
    split at h
    · cases h
    · cases h
      exact ⟨rfl, rfl⟩

/-- Writing a word to a symbol writes as much of it as the declared type holds. -/
def WritesDeclared (H : Host W) (fn : Function) (s : State W) (x : String) : Prop :=
  ∀ type, fn.localDeclaredType x = some type →
    match s.env x with
    | some var => var.Declared type
    | none => ∀ bits isUnsigned, declaredIntegerWidth type = some (bits, isUnsigned) → ∀ v,
      H.storeVar s.world x (.ofInt (wrapFolded bits isUnsigned v)) = H.storeVar s.world x (.ofInt v)

/-- A binary operation on two literals stores the result. -/
theorem exec_binary_int (hop : i.op = .binary) (hconcat : i.isConcat = false) (hfloat : i.isFloat = false)
    {a b : BitVec 64} (ha : s.fetch H i.lhs = some (.ofInt a)) (hb : s.fetch H i.rhs = some (.ofInt b))
    {r : BitVec 64} (hr : binaryInt (i.text.getD "?") i.isUnsigned a b = some (.ofInt r)) :
    H.binary s.world i (.ofInt a) (.ofInt b) = some (.ofInt r, s.world) ∧
      s.exec H fn i = s.storeDest H i.dest (.ofInt r) := by
  constructor
  · simp only [Host.binary, hconcat, hfloat, Bool.false_eq_true, if_false]
    change (binaryInt (i.text.getD "?") i.isUnsigned a b).map _ = _
    rw [hr, map_some]
  · exact exec_binary_of_fetch hop hconcat hfloat ha hb hr

/-- The assignment of a literal stores it. -/
theorem exec_assign_int (c : BitVec 64) :
    s.exec H fn (i.rewriteToAssignOperand (.ofInt c)) = s.storeDest H i.dest (.ofInt c) :=
  exec_assign_literal (i := i.rewriteToAssignOperand (.ofInt c)) rfl rfl

/-- The declared widths. -/
theorem width_cases (h : declaredIntegerWidth type = some (bits, isUnsigned)) :
    bits = 0 ∨ ∃ size ∈ [1, 2, 4], bits = 8 * size := by
  unfold declaredIntegerWidth at h
  split_ifs at h
  all_goals
    obtain ⟨rfl, -⟩ := h
    simp

/-- A local keeps the same of a word and of the wrapped word. -/
theorem storeDest_wrapFolded (hkind : i.dest.kind = .symbol) (hname : i.dest.name = some x)
    (htype : fn.localDeclaredType x = some type) (hwidth : declaredIntegerWidth type = some (bits, isUnsigned))
    (hs : WritesDeclared H fn s x) (v : BitVec 64) :
    s.storeDest H i.dest (.ofInt (wrapFolded bits isUnsigned v)) = s.storeDest H i.dest (.ofInt v) := by
  have hwrites := hs type htype
  unfold State.storeDest
  rw [hkind, hname]
  dsimp only
  cases henv : s.env x with
  | none =>
    rw [henv] at hwrites
    rw [hwrites bits isUnsigned hwidth v]
  | some var =>
    rw [henv] at hwrites
    obtain ⟨hsize, hunsigned⟩ := hwrites bits isUnsigned hwidth
    have hwrite : var.write H.floats (.ofInt (wrapFolded bits isUnsigned v)) = var.write H.floats (.ofInt v) := by
      rcases width_cases hwidth with rfl | ⟨size, hmem, rfl⟩
      · rfl
      · have hpos : 1 ≤ size ∧ size ≤ 4 := by
          simp only [mem_cons, not_mem_nil, or_false] at hmem
          omega
        have hmem' : size ∈ integerSizes := by
          simp only [integerSizes, mem_cons, not_mem_nil, or_false] at hmem ⊢
          omega
        have hsame : castLosesSign size isUnsigned size isUnsigned = false := by simp [castLosesSign]
        rw [if_neg (by omega), Nat.mul_div_cancel_left _ (by omega)] at hsize
        have hwrap : narrowInt (wrapFolded (8 * size) isUnsigned v) size isUnsigned =
            narrowInt v size isUnsigned := by
          rw [wrapFolded_eq_narrowInt hmem, narrowInt_narrowInt hmem' hmem' hsame, if_pos le_rfl]
        have hnarrow : (0 : ℤ) < size ∧ (size : ℤ) < 8 := by omega
        simp only [Var.write, Value.ofInt, hsize, hunsigned, Bool.false_eq_true, not_false_eq_true, true_and,
          if_pos hnarrow, hwrap]
    dsimp only
    rw [hwrite]

/-- What the folder does when it changes an instruction. -/
theorem foldConstantBinary_cases {tempMap symbolMap : String → Option Operand}
    (h : fn.foldConstantBinary tempMap symbolMap i ≠ i) :
    ∃ op a b r narrowBits narrowUnsigned, i.op = .binary ∧ i.isFloat = false ∧ i.text = some op ∧
      operandConstant tempMap symbolMap i.lhs = some a ∧ operandConstant tempMap symbolMap i.rhs = some b ∧
      ¬ (i.isUnsigned ∧ isSignSensitive op) ∧ evaluateIntegerBinary op a b = some r ∧
      fn.foldWidth i.dest op = some (narrowBits, narrowUnsigned) ∧
      fn.foldConstantBinary tempMap symbolMap i = i.rewriteToAssignOperand (.ofInt
        (if narrowBits = 0 ∧ i.dest.kind ≠ .symbol then
          narrowFolded i.valueType (wrapFolded narrowBits narrowUnsigned r)
        else wrapFolded narrowBits narrowUnsigned r)) := by
  generalize hfold : fn.foldConstantBinary tempMap symbolMap i = out at h ⊢
  rw [Function.foldConstantBinary] at hfold
  split at hfold
  · exact absurd hfold.symm h
  rename_i hop
  simp only [ne_eq, not_or, not_not, Bool.not_eq_true] at hop
  split at hfold
  · rename_i op a b htext ha hb
    split at hfold
    · exact absurd hfold.symm h
    rename_i hsign
    split at hfold
    · exact absurd hfold.symm h
    rename_i bits isUnsigned hwidth
    split at hfold
    · exact absurd hfold.symm h
    split at hfold
    · exact absurd hfold.symm h
    rename_i r hr
    exact ⟨op, a, b, r, bits, isUnsigned, hop.1, hop.2, htext, ha, hb, hsign, hr, hwidth, hfold.symm⟩
  · exact absurd hfold.symm h

/-- The folded constant is the word that the interpreter computes, which then does not trap. For a temporary the
constant is wrapped to the type of the instruction; a local gets from both instructions the same. -/
theorem foldConstantBinary_agrees {tempMap symbolMap : String → Option Operand} (hconcat : i.isConcat = false)
    (hlhs : ∀ a, operandConstant tempMap symbolMap i.lhs = some a → s.fetch H i.lhs = some (.ofInt a))
    (hrhs : ∀ b, operandConstant tempMap symbolMap i.rhs = some b → s.fetch H i.rhs = some (.ofInt b))
    (h : fn.foldConstantBinary tempMap symbolMap i ≠ i) :
    ∃ a b r, s.fetch H i.lhs = some (.ofInt a) ∧ s.fetch H i.rhs = some (.ofInt b) ∧
      H.binary s.world i (.ofInt a) (.ofInt b) = some (.ofInt r, s.world) ∧
      s.exec H fn i = s.storeDest H i.dest (.ofInt r) ∧
      (i.dest.kind ≠ .symbol → s.exec H fn (fn.foldConstantBinary tempMap symbolMap i) =
        s.storeDest H i.dest (.ofInt (narrowFolded i.valueType r))) ∧
      (i.dest.kind = .symbol → (∀ x, i.dest.name = some x → WritesDeclared H fn s x) →
        s.exec H fn (fn.foldConstantBinary tempMap symbolMap i) = s.exec H fn i) := by
  obtain ⟨op, a, b, r, bits, isUnsigned, hop, hfloat, htext, ha, hb, hsign, hr, hwidth, hfold⟩ :=
    foldConstantBinary_cases h
  have hbinary : binaryInt (i.text.getD "?") i.isUnsigned a b = some (.ofInt r) := by
    rw [htext]
    exact binaryInt_of_evaluate hr hsign
  obtain ⟨hvalue, hexec⟩ : H.binary s.world i (.ofInt a) (.ofInt b) = some (.ofInt r, s.world) ∧
      s.exec H fn i = s.storeDest H i.dest (.ofInt r) :=
    exec_binary_int hop hconcat hfloat (hlhs a ha) (hrhs b hb) hbinary
  refine ⟨a, b, r, hlhs a ha, hrhs b hb, hvalue, hexec, fun hkind => ?_, fun hkind hwrites => ?_⟩
  · rw [Function.foldWidth, if_neg (fun hs => hkind hs.1), Option.some.injEq, Prod.mk.injEq] at hwidth
    obtain ⟨rfl, rfl⟩ := hwidth
    rw [hfold, exec_assign_int, if_pos ⟨rfl, hkind⟩]
    rfl
  · rw [hfold, exec_assign_int, if_neg (fun hs => hs.2 hkind), hexec]
    by_cases hcompare : isCompare op
    · rw [Function.foldWidth, if_neg (fun hs => hs.2 hcompare), Option.some.injEq, Prod.mk.injEq] at hwidth
      obtain ⟨rfl, rfl⟩ := hwidth
      rfl
    · rw [Function.foldWidth, if_pos ⟨hkind, hcompare⟩, Option.bind_eq_some_iff] at hwidth
      obtain ⟨type, htype, hwidth⟩ := hwidth
      rw [Option.bind_eq_some_iff] at htype
      obtain ⟨x, hname, htype⟩ := htype
      exact storeDest_wrapFolded hkind hname htype hwidth (hwrites x hname) r

/-- The sum of the largest 32-bit integer and one. -/
def overflowingSum (dest : Operand) (type : Option MtlcType) : Inst :=
  { op := .binary, dest, lhs := .ofInt 0x7fffffff, rhs := .ofInt 1, text := some "+", valueType := type }

/-- A function with one 32-bit local. -/
def oneLocal : Function where
  instructions := [{ op := .declareLocal, dest := .ofSymbol "x", text := some "int32" }]

/-- A frame with that local. -/
def oneLocalState : State Unit where
  env := fun name => if name = "x" then some { value := .poison, size := 4 } else none
  world := ()

/-- The sum is folded to a 32-bit word, and the local holds the same as without folding. -/
theorem foldConstantBinary_agrees_local :
    oneLocal.foldConstantBinary (fun _ => none) (fun _ => none) (overflowingSum (.ofSymbol "x") none) =
      (overflowingSum (.ofSymbol "x") none).rewriteToAssignOperand (.ofInt (-0x80000000)) ∧
    oneLocalState.exec Host.scalars oneLocal (oneLocal.foldConstantBinary (fun _ => none) (fun _ => none)
      (overflowingSum (.ofSymbol "x") none)) =
      oneLocalState.exec Host.scalars oneLocal (overflowingSum (.ofSymbol "x") none) := by
  have hfold : oneLocal.foldConstantBinary (fun _ => none) (fun _ => none) (overflowingSum (.ofSymbol "x") none) =
      (overflowingSum (.ofSymbol "x") none).rewriteToAssignOperand (.ofInt (-0x80000000)) := by decide
  have hconst : ∀ (o : Operand) (c a : BitVec 64), o = .ofInt c →
      operandConstant (fun _ => none) (fun _ => none) o = some a →
      oneLocalState.fetch Host.scalars o = some (.ofInt a) := by
    rintro _ c a rfl h
    obtain rfl : c = a := Option.some.inj h
    rfl
  obtain ⟨a, b, r, -, -, -, -, -, hsymbol⟩ :=
    @foldConstantBinary_agrees Unit Host.scalars oneLocal oneLocalState (overflowingSum (.ofSymbol "x") none)
      (fun _ => none) (fun _ => none) (by decide) (hconst _ _ · rfl) (hconst _ _ · rfl) (by rw [hfold]; decide)
  refine ⟨hfold, hsymbol rfl fun x hx type htype => ?_⟩
  obtain rfl : "x" = x := Option.some.inj hx
  obtain rfl : "int32" = type := Option.some.inj htype
  intro bits isUnsigned hwidth
  obtain ⟨rfl, rfl⟩ : 32 = bits ∧ false = isUnsigned := by simpa using Option.some.inj hwidth
  exact ⟨rfl, rfl⟩

/-- For a temporary the interpreter does not wrap the sum, the folder does. -/
theorem foldConstantBinary_wraps_temp :
    ((oneLocalState.exec Host.scalars oneLocal (overflowingSum (.ofTemp "t") (some { kind := .int32, size := 4 }))).bind
        (·.fetch Host.scalars (.ofTemp "t"))) = some (.ofInt 0x80000000) ∧
      ((oneLocalState.exec Host.scalars oneLocal (oneLocal.foldConstantBinary (fun _ => none) (fun _ => none)
        (overflowingSum (.ofTemp "t") (some { kind := .int32, size := 4 })))).bind
        (·.fetch Host.scalars (.ofTemp "t"))) = some (.ofInt (-0x80000000)) := by
  constructor <;> decide

end Mettle.Ir

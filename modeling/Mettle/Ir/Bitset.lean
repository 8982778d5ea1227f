import Mettle.Ir.Coalesce

/-!
# Chains of equality branches as bit sets

`ir_or_chain_to_bitset_pass` of `ir_optimize_scalar_simplify.c`. A chain of `BRANCH_EQ` on one operand
with distinct keys from 0 to 62, closed by a comparison and a `BRANCH_ZERO` before the label the chain
branches to, becomes an unsigned guard, a shift, a mask and one branch. A slot keeps the fields of the
instruction it overwrites that `ir_instruction_make_nop` does not reset.
-/

namespace Mettle.Ir

/-- `ir_find_next_non_nop`. -/
def Function.nextNonNop (fn : Function) (start : ℕ) : Option ℕ :=
  ((fn.instructions.drop start).findIdx? fun i => i.op ≠ .nop).map (start + ·)

namespace Bitset

/-- `ir_bitset_same_operand`. -/
def sameOperand (a b : Operand) : Bool :=
  a.kind = b.kind ∧ a.name.isSome ∧ a.name = b.name ∧ (a.kind = .temp ∨ a.kind = .symbol)

/-- `ir_bitset_key_ok`. -/
def keyOk (keys : List (BitVec 64)) (key : BitVec 64) : Bool :=
  0 ≤ key.toInt ∧ key.toInt ≤ 62 ∧ key ∉ keys

/-- An instruction that `ir_bitset_match_chain` adds to the chain. -/
def isLink (first : Inst) (keys : List (BitVec 64)) (i : Inst) : Bool :=
  i.op = .branchEq ∧ i.isFloat = false ∧ i.text.isSome ∧ i.text = first.text ∧ i.rhs.kind = .int ∧
    sameOperand i.lhs first.lhs ∧ keyOk keys i.rhs.intValue

/-- The loop of `ir_bitset_match_chain`: the keys, and how many instructions it passes. -/
def scan (first : Inst) : List Inst → List (BitVec 64) → List (BitVec 64) × ℕ
  | [], keys => (keys, 0)
  | i :: rest, keys =>
    if i.op = .nop then ((scan first rest keys).1, (scan first rest keys).2 + 1)
    else if isLink first keys i then
      ((scan first rest (keys ++ [i.rhs.intValue])).1, (scan first rest (keys ++ [i.rhs.intValue])).2 + 1)
    else (keys, 0)

/-- An instruction a chain may start at. -/
def isFirst (i : Inst) : Bool :=
  i.op = .branchEq ∧ i.isFloat = false ∧ i.text.isSome ∧ i.rhs.kind = .int ∧
    (i.lhs.kind = .temp ∨ i.lhs.kind = .symbol) ∧ i.lhs.name.isSome

/-- The comparison that closes a chain. -/
def isClose (fn : Function) (first : Inst) (keys : List (BitVec 64)) (i : Inst) : Bool :=
  i.op = .binary ∧ i.isFloat = false ∧ i.text = some "==" ∧ i.rhs.kind = .int ∧ i.dest.isTemp ∧
    sameOperand i.lhs first.lhs ∧ keyOk keys i.rhs.intValue ∧ i.dest.name.map fn.tempUseCount = some 1

/-- The branch on the comparison. -/
def isBranch (cmp i : Inst) : Bool :=
  i.op = .branchZero ∧ i.lhs.isTemp ∧ i.text.isSome ∧ i.lhs.name = cmp.dest.name

/-- The label the chain branches to. -/
def isHit (first i : Inst) : Bool := i.op = .label ∧ i.text.isSome ∧ i.text = first.text

/-- `ir_bitset_match_chain`: the keys and the index of the last branch. -/
def matchChain (fn : Function) (index : ℕ) : Option (List (BitVec 64) × ℕ) := do
  let first := fn.insn index
  guard (isFirst first)
  let (keys, passed) := scan first (fn.instructions.drop index) []
  guard (keys ≠ [])
  let tail ← fn.nextNonNop (index + passed)
  let cmp := fn.insn tail
  guard (isClose fn first keys cmp)
  let branch ← fn.nextNonNop (tail + 1)
  guard (isBranch cmp (fn.insn branch))
  let label ← fn.nextNonNop (branch + 1)
  guard (isHit first (fn.insn label))
  guard (4 ≤ (keys ++ [cmp.rhs.intValue]).length)
  some (keys ++ [cmp.rhs.intValue], branch)

/-- The names of the temporaries of a site. -/
def name (letter : Char) (id : ℕ) : String := "__bset_" ++ letter.toString ++ toString id

/-- The letters of the guard, the one, the shift, the mask and the bit. -/
def letters : List Char := ['g', 'o', 's', 'm', 'a']

/-- `mask`. -/
def mask (keys : List (BitVec 64)) : BitVec 64 := keys.foldl (fun m k => m ||| 1#64 <<< k.toNat) 0

/-- `max_key`. -/
def maxKey (keys : List (BitVec 64)) : BitVec 64 := keys.foldl (fun m k => if m.slt k then k else m) 0

/-- A slot of `ir_bitset_emit`, written over a `NOP`. -/
def slot (value : Operand) (mask maxKey : BitVec 64) (miss : Option String) (id : ℕ) : ℕ → Inst → Inst
  | 0, i => { i with op := .binary, text := some "<=", dest := .ofTemp (name 'g' id), lhs := value,
                     rhs := .ofInt maxKey, isUnsigned := true }
  | 1, i => { i with op := .branchZero, lhs := .ofTemp (name 'g' id), text := miss }
  | 2, i => { i with op := .assign, dest := .ofTemp (name 'o' id), lhs := .ofInt 1 }
  | 3, i => { i with op := .binary, text := some "<<", dest := .ofTemp (name 's' id),
                     lhs := .ofTemp (name 'o' id), rhs := value }
  | 4, i => { i with op := .assign, dest := .ofTemp (name 'm' id), lhs := .ofInt mask }
  | 5, i => { i with op := .binary, text := some "&", dest := .ofTemp (name 'a' id),
                     lhs := .ofTemp (name 's' id), rhs := .ofTemp (name 'm' id) }
  | 6, i => { i with op := .branchZero, lhs := .ofTemp (name 'a' id), text := miss }
  | _, i => i

/-- `ir_bitset_emit`. -/
def emit (fn : Function) (first last : ℕ) (value : Operand) (mask maxKey : BitVec 64)
    (miss : Option String) (id : ℕ) : Function :=
  { fn with
    instructions := fn.instructions.mapIdx fun k i =>
      if first ≤ k ∧ k ≤ last then slot value mask maxKey miss id (k - first) i.makeNop else i }

/-- Insert `NOP`s before an instruction. -/
def insertNops (fn : Function) (index count : ℕ) : Function :=
  { fn with
    instructions := fn.instructions.take index ++ List.replicate count {} ++ fn.instructions.drop index }

/-- `IR_BITSET_SLOTS` less the instructions there are. -/
def extra (index branch : ℕ) : ℕ := 7 - (branch - index + 1)

/-- `ir_bitset_rewrite_chain`. -/
def rewriteChain (fn : Function) (index branch : ℕ) (keys : List (BitVec 64)) (id : ℕ) : Function :=
  emit (insertNops fn index (extra index branch)) index (branch + extra index branch)
    (fn.insn index).lhs (mask keys) (maxKey keys) (fn.insn branch).text id

/-- `ir_or_chain_to_bitset_once`: the first chain is rewritten; `none` when there is none. -/
def once (fn : Function) (id : ℕ) : Option Function :=
  (List.range fn.instructions.length).findSome? fun index =>
    (matchChain fn index).map fun (keys, branch) => rewriteChain fn index branch keys id

/-- Rounds of the pass, with the counter of the generated names. -/
def rounds : ℕ → Function × ℕ → Function × ℕ
  | 0, st => st
  | k + 1, (fn, id) =>
    match once fn id with
    | none => (fn, id)
    | some out => rounds k (out, id + 1)

/-- `ir_or_chain_to_bitset_pass`. -/
def pass (fn : Function) (id : ℕ) : Function × ℕ := rounds 64 (fn, id)

end Bitset

end Mettle.Ir

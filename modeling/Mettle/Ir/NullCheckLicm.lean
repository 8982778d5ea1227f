import Mettle.Ir.Coalesce
import Mettle.Ir.IfConvert
import Mettle.Ir.Relocate

/-!
# Hoisting null checks out of loops

`ir_null_check_licm_pass` and `ir_match_null_trap_diamond`: a check of a loop whose symbol the loop does
not seem to write is made once, before the loop, behind a copy of the loop's entry test.
-/

namespace Mettle.Ir

/-- `strncmp` of a text with a prefix. -/
def hasPrefix (start : String) (text : Option String) : Bool :=
  text.any fun text => start.toList.isPrefixOf text.toList

/-- What `ir_match_null_trap_diamond` finds after the branch of a check. -/
structure NullTrapDiamond where
  symbolName : String
  jump : ℕ
  trapLabel : ℕ
  call : ℕ
  okLabel : ℕ
  deriving DecidableEq, Repr

/-- The check a loop is relieved of: where it stands and the loop's entry test. -/
structure NullhoistSite where
  check : ℕ
  diamond : NullTrapDiamond
  entryBranch : ℕ
  deriving DecidableEq, Repr

namespace Function

variable (fn : Function)

/-- `ir_find_next_non_nop`. -/
def findNextNonNop (start : ℕ) : Option ℕ := fn.firstFrom start fun i => i.op ≠ .nop

/-- `ir_function_first_jump_to`. -/
def firstJumpTo (after : ℕ) (label : Option String) : Option ℕ :=
  fn.firstFrom (after + 1) fun i => i.op = .jump ∧ i.text.isSome ∧ i.text = label

/-- `ir_match_null_trap_diamond`. -/
def matchNullTrapDiamond (start : ℕ) : Option NullTrapDiamond := do
  let branch := fn.insn start
  guard (start < fn.instructions.length ∧ branch.op = .branchZero ∧ branch.lhs.kind = .symbol ∧
    hasPrefix "ir_trap_null_" branch.text)
  let symbolName ← branch.lhs.name
  let jump ← fn.findNextNonNop (start + 1)
  guard ((fn.insn jump).op = .jump ∧ hasPrefix "ir_nonnull_" (fn.insn jump).text)
  let trapLabel ← fn.findNextNonNop (jump + 1)
  guard ((fn.insn trapLabel).op = .label ∧ (fn.insn trapLabel).text = branch.text)
  let call ← fn.findNextNonNop (trapLabel + 1)
  guard ((fn.insn call).op = .call ∧
    ((fn.insn call).text = some "mettle_crash_trap" ∨ (fn.insn call).text = some "mettle_crash_trap_ex"))
  let okLabel ← fn.findNextNonNop (call + 1)
  guard ((fn.insn okLabel).op = .label ∧ (fn.insn okLabel).text = (fn.insn jump).text)
  some ⟨symbolName, jump, trapLabel, call, okLabel⟩

end Function

/-- `ir_nullhoist_cloneable_cond_op`. -/
def Inst.nullhoistCloneableCondOp (i : Inst) : Bool :=
  i.op ∈ ([.nop, .assign, .binary, .unary, .load, .cast, .addressOf] : List Opcode)

/-- The exit test of a `while` loop. -/
def Inst.isWhileEndBranch (i : Inst) : Bool := i.op = .branchZero ∧ hasPrefix "ir_while_end" i.text

namespace Function

variable (fn : Function)

/-- `ir_nullhoist_find_entry_test`: the loop stops at the first instruction that is the test or cannot
be copied. -/
def nullhoistFindEntryTest (header backedge : ℕ) : Option ℕ := do
  let k ← fn.firstFrom (header + 1) fun i => i.isWhileEndBranch ∨ ¬ i.nullhoistCloneableCondOp
  guard (k < backedge ∧ (fn.insn k).isWhileEndBranch)
  some k

/-- The scan of the loop for what may change the checked symbol. -/
def nullhoistSafe (header backedge check : ℕ) (d : NullTrapDiamond) : Bool :=
  (List.range' (header + 1) (backedge - (header + 1))).all fun k =>
    (check ≤ k ∧ k ≤ d.okLabel) ∨
      ¬ ((fn.insn k).writesSymbol ∧ (fn.insn k).dest.name = some d.symbolName) ∧
        ¬ (fn.addressTaken d.symbolName ∧
          (fn.insn k).op ∈ ([.store, .call, .callIndirect] : List Opcode))

/-- The code between the entry test and the check has no label and no jump. -/
def nullhoistStraightLine (entryBranch check : ℕ) : Bool :=
  (fn.slice (entryBranch + 1) check).all fun i =>
    i.op ∉ ([.label, .jump, .branchZero, .branchEq] : List Opcode)

/-- What the loop over `j` accepts. -/
def nullhoistSiteAt (header backedge check : ℕ) : Option NullhoistSite := do
  let diamond ← fn.matchNullTrapDiamond check
  guard (diamond.okLabel < backedge ∧ fn.nullhoistSafe header backedge check diamond)
  let entryBranch ← fn.nullhoistFindEntryTest header backedge
  guard (entryBranch < check ∧ fn.nullhoistStraightLine entryBranch check)
  guard (diamond.okLabel - check + 1 ≤ 16 ∧ entryBranch - header - 1 ≤ 16)
  some ⟨check, diamond, entryBranch⟩

/-- The first check of the loop at a header that can be hoisted. -/
def nullhoistSite (header : ℕ) : Option NullhoistSite := do
  guard ((fn.insn header).op = .label ∧ hasPrefix "ir_while_" (fn.insn header).text)
  let backedge ← fn.firstJumpTo header (fn.insn header).text
  (List.range' (header + 1) (backedge - 4 - (header + 1))).findSome? (fn.nullhoistSiteAt header backedge)

/-- `snapshot`: the copied entry test, the copied check and the label that skips it. -/
def nullhoistSnapshot (header : ℕ) (site : NullhoistSite) (skipLabel : String) : List Inst :=
  fn.slice (header + 1) site.entryBranch ++
    { op := .branchZero, lhs := (fn.insn site.entryBranch).lhs, text := some skipLabel } ::
      (fn.slice site.check (site.diamond.okLabel + 1) ++ [{ op := .label, text := some skipLabel }])

/-- The function after one check is hoisted. -/
def nullhoist (header : ℕ) (site : NullhoistSite) (skipLabel : String) : Function :=
  (fn.mapRange site.check (site.diamond.okLabel + 1) Inst.makeNop).insertAt header
    (fn.nullhoistSnapshot header site skipLabel)

end Function

/-- Where the loop over `i` stands. -/
structure NullCheckLicm where
  function : Function
  index : ℕ
  counter : ℕ

namespace NullCheckLicm

/-- `skip_label`. -/
def skipLabel (st : NullCheckLicm) : String := "ir_nullhoist_skip_" ++ toString st.counter

/-- The check hoisted at an index. -/
def site (st : NullCheckLicm) : Option NullhoistSite := st.function.nullhoistSite st.index

/-- One round of the loop over `i`. After a hoist the header, which has moved, is looked at again. -/
def round (st : NullCheckLicm) : NullCheckLicm :=
  if st.function.instructions.length ≤ st.index then st
  else
    match st.site with
    | none => { st with index := st.index + 1 }
    | some site => {
        function := st.function.nullhoist st.index site st.skipLabel
        index := st.index + (st.function.nullhoistSnapshot st.index site st.skipLabel).length
        counter := st.counter + 1 }

end NullCheckLicm

/-- `ir_null_check_licm_pass`. Each round moves on or removes a branch from the rest of the function, so
that twice its length are rounds enough. -/
def nullCheckLicmPass (fn : Function) (counter : ℕ) : Function :=
  (NullCheckLicm.round^[2 * fn.instructions.length] ⟨fn, 0, counter⟩).function

end Mettle.Ir

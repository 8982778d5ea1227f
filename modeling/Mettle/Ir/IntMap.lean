import Mettle.Ir.Coalesce

/-!
# The integers symbols hold before a loop

`ir_build_symbol_int_map_before` (`ir_optimize_word_count_and_div_shift.c`): one scan over the instructions before an
index, in the order of the text, and for the header of a loop one over those behind its back edge. The map holds
integers only.
-/

open Option

namespace Mettle.Ir

/-- `IRSymbolValueMap`, as far as it maps symbols to integers. -/
abbrev SymbolIntMap : Type := String → Option (BitVec 64)

namespace SymbolIntMap

/-- `ir_temp_value_map_clear`. -/
def clear : SymbolIntMap := fun _ => none

/-- `ir_temp_value_map_set`. -/
def set (m : SymbolIntMap) (x : String) (c : BitVec 64) : SymbolIntMap := Function.update m x (some c)

/-- `ir_temp_value_map_remove`, of a name that may be missing. -/
def remove (m : SymbolIntMap) (x : Option String) : SymbolIntMap := fun y => if x = some y then none else m y

end SymbolIntMap

namespace Inst

/-- The instructions after which no symbol is known. -/
def clobbers (i : Inst) : Bool := i.op ∈ ([.call, .callIndirect, .store, .inlineAsm] : List Opcode)

/-- The case of `IR_OP_ASSIGN`. -/
def scanAssign (i : Inst) (m : SymbolIntMap) : SymbolIntMap :=
  if i.lhs.kind = .int then m.set (i.dest.name.getD "") i.lhs.intValue
  else if i.lhs.kind = .symbol ∧ i.lhs.name.isSome then
    match i.lhs.name.bind m with
    | some c => m.set (i.dest.name.getD "") c
    | none => m.remove i.dest.name
  else m.remove i.dest.name

/-- One instruction before the index. -/
def scanBefore (i : Inst) (m : SymbolIntMap) : SymbolIntMap :=
  if i.op = .nop then m
  else if i.clobbers then .clear
  else if i.op = .assign then if i.dest.isSymbol then i.scanAssign m else m
  else if i.op = .rotateAdd then ((m.remove i.dest.name).remove i.lhs.name).remove i.rhs.name
  else if i.writesDestination ∧ i.dest.isSymbol then m.remove i.dest.name
  else m

/-- The instructions behind the back edge. The first one after which nothing is known ends the scan. -/
def scanAfter (m : SymbolIntMap) : List Inst → SymbolIntMap
  | [] => m
  | i :: rest =>
    if i.op = .nop then scanAfter m rest
    else if i.clobbers then .clear
    else
      let m := if i.op = .rotateAdd then (m.remove i.lhs.name).remove i.rhs.name else m
      let m := if i.writesDestination ∧ i.dest.kind = .symbol then m.remove i.dest.name else m
      scanAfter m rest

end Inst

namespace Function

variable (fn : Function)

/-- The first loop, over the instructions before an index; there are none beyond the end. -/
def scanBefore : ℕ → SymbolIntMap
  | 0 => .clear
  | n + 1 => (fn.insn n).scanBefore (scanBefore n)

/-- The first jump behind an index to the label there. -/
def ownBackedge (index : ℕ) : Option ℕ :=
  ((fn.instructions.drop (index + 1)).findIdx? fun i =>
    i.op = .jump ∧ i.text.isSome ∧ i.text = (fn.insn index).text).map (index + 1 + ·)

/-- `ir_build_symbol_int_map_before`. -/
def symbolIntMapBefore (index : ℕ) : SymbolIntMap :=
  let m := fn.scanBefore index
  if fn.instructions.length ≤ index ∨ (fn.insn index).op ≠ .label ∨ (fn.insn index).text = none then m
  else
    match fn.ownBackedge index with
    | none => m
    | some backedge => Inst.scanAfter m (fn.instructions.drop (backedge + 1))

end Function

end Mettle.Ir

import Mettle.Ir.Coalesce

/-!
# Folding read-only globals

`ir_fold_readonly_globals_pass` (`ir_optimize_readonly_globals.c`): a global of the table that no function of the program
is seen to write is replaced by its initial value. A candidate is told to be shadowed in a function by the number of the
sweep over the function. The hash buckets and missing functions are left out.
-/

open List Function
open Option hiding or_assoc

namespace Mettle.Ir

/-- `IRGlobalIntConst`. -/
structure GlobalIntConst where
  name : Option String
  value : BitVec 64
  deriving DecidableEq, Repr

/-- `IRRgCandidate`. -/
structure RgCandidate where
  name : String
  value : BitVec 64
  disqualified : Bool := false
  shadowGen : ℕ := 0
  deriving DecidableEq, Repr

/-- `IRRgTable`. -/
abbrev RgTable : Type := List RgCandidate

namespace RgTable

/-- `ir_rg_table_find`. -/
def find (table : RgTable) (name : Option String) : Option RgCandidate :=
  name.bind fun name => List.find? (fun cand => cand.name = name) table

/-- Change the candidate of a name, if there is one. -/
def update (table : RgTable) (name : Option String) (f : RgCandidate → RgCandidate) : RgTable :=
  table.map fun cand => if name = some cand.name then f cand else cand

/-- `ir_rg_mark_shadows`, its loop over the parameters. -/
def markParameters (table : RgTable) (gen : ℕ) (names : List String) : RgTable :=
  names.foldl (fun table name => table.update (some name) fun cand => { cand with shadowGen := gen }) table

/-- `ir_rg_mark_shadows`, its loop over the instructions. -/
def markLocals (table : RgTable) (gen : ℕ) (instructions : List Inst) : RgTable :=
  instructions.foldl (fun table ins =>
    if ins.op = .declareLocal ∧ ins.dest.isSymbol ∧ ins.text.isSome then
      table.update ins.dest.name fun cand => { cand with shadowGen := gen }
    else table) table

/-- `ir_rg_mark_shadows`. -/
def markShadows (table : RgTable) (fn : Function) (gen : ℕ) : RgTable :=
  (table.markParameters gen fn.parameterNames).markLocals gen fn.instructions

/-- `ir_rg_fold_operand`. -/
def foldOperand (table : RgTable) (gen : ℕ) (o : Operand) : Operand :=
  if o.kind = .symbol then
    match table.find o.name with
    | some cand => if cand.disqualified ∨ cand.shadowGen = gen then o else .ofInt cand.value
    | none => o
  else o

end RgTable

/-- The name between a brace and the closing one, with blanks around it. -/
def bindsAt (name rest : List Char) : Bool :=
  let blank (c : Char) : Bool := c = ' ' ∨ c = '\t'
  let cursor := rest.dropWhile blank
  name.isPrefixOf cursor ∧ ((cursor.drop name.length).dropWhile blank).head? = some '}'

/-- `ir_inline_asm_binds_symbol`, on characters. -/
def inlineAsmBinds (name : List Char) : List Char → Bool
  | [] => false
  | c :: rest => (c = '\x7b' ∧ bindsAt name rest) ∨ inlineAsmBinds name rest

/-- `ir_inline_asm_binds_symbol`. -/
def inlineAsmBindsSymbol (text : Option String) (name : String) : Bool :=
  text.any fun text => name ≠ "" ∧ inlineAsmBinds name.toList text.toList

namespace RgTable

/-- What the first sweep does at an instruction. -/
def check (table : RgTable) (gen : ℕ) (ins : Inst) : RgTable :=
  let disqualify (cand : RgCandidate) : RgCandidate :=
    if cand.shadowGen ≠ gen then { cand with disqualified := true } else cand
  let table :=
    if ins.op = .addressOf ∧ ins.lhs.kind = .symbol then table.update ins.lhs.name disqualify else table
  let table :=
    if ins.writesDestination ∧ ins.dest.isSymbol then table.update ins.dest.name disqualify else table
  if ins.op = .inlineAsm then
    table.map fun cand => if inlineAsmBindsSymbol ins.text cand.name then disqualify cand else cand
  else table

/-- What the second sweep does at an instruction. -/
def foldInst (table : RgTable) (gen : ℕ) (ins : Inst) : Inst :=
  if ins.op = .addressOf then ins
  else
    { ins with
      lhs := table.foldOperand gen ins.lhs
      rhs := table.foldOperand gen ins.rhs
      arguments := ins.arguments.map (table.foldOperand gen) }

/-- The first sweep over the program, and the number of its last function. -/
def firstSweep (table : RgTable) (gen : ℕ) : List Function → RgTable × ℕ
  | [] => (table, gen)
  | fn :: rest =>
    let gen := gen + 1
    firstSweep (fn.instructions.foldl (fun table ins => table.check gen ins) (table.markShadows fn gen)) gen rest

/-- The second sweep. -/
def secondSweep (table : RgTable) (gen : ℕ) : List Function → List Function
  | [] => []
  | fn :: rest =>
    let gen := gen + 1
    let table := table.markShadows fn gen
    { fn with instructions := fn.instructions.map (table.foldInst gen) } :: secondSweep table gen rest

/-- A constant is added unless there is one of its name. -/
def addConst (table : RgTable) (const : GlobalIntConst) : RgTable :=
  match const.name with
  | none => table
  | some name => if (table.find (some name)).isSome then table else table ++ [{ name := name, value := const.value }]

/-- The table of candidates. -/
def ofConsts (consts : List GlobalIntConst) : RgTable := consts.foldl addConst []

end RgTable

/-- `ir_fold_readonly_globals_pass`. -/
def foldReadonlyGlobals (consts : List GlobalIntConst) (functions : List Function) : List Function :=
  if consts.isEmpty then functions
  else
    let (table, gen) := (RgTable.ofConsts consts).firstSweep 0 functions
    table.secondSweep gen functions

/-!
## What the two sweeps compute

Each candidate goes through the sweeps by itself. After the first it is disqualified just when some function in which it
is not shadowed is seen to write it, and the second folds the operands that name one of the others where it is not
shadowed.
-/

/-- The instruction is seen to write a symbol. -/
def Inst.seenToWrite (i : Inst) (x : String) : Bool :=
  (i.op = .addressOf ∧ i.lhs.kind = .symbol ∧ i.lhs.name = some x) ∨
    (i.writesDestination ∧ i.dest.isSymbol ∧ i.dest.name = some x) ∨
    (i.op = .inlineAsm ∧ inlineAsmBindsSymbol i.text x)

/-- A parameter, or a local that is declared with a type, has the name. -/
def Function.shadows (fn : Function) (x : String) : Bool :=
  x ∈ fn.parameterNames ∨
    ∃ i ∈ fn.instructions, i.op = .declareLocal ∧ i.dest.isSymbol ∧ i.text.isSome ∧ i.dest.name = some x

/-- Some function in which the symbol is not shadowed is seen to write it. -/
def seenWritten (functions : List Function) (x : String) : Bool :=
  ∃ fn ∈ functions, fn.shadows x = false ∧ ∃ i ∈ fn.instructions, i.seenToWrite x = true

/-- The first constant of a name. -/
def lookupConst (consts : List GlobalIntConst) (x : String) : Option (BitVec 64) :=
  (consts.find? fun const => const.name = some x).map (·.value)

/-- The value an operand of a function that names a symbol is replaced by. -/
def replacement (consts : List GlobalIntConst) (functions : List Function) (fn : Function) (x : String) :
    Option (BitVec 64) :=
  if fn.shadows x ∨ seenWritten functions x then none else lookupConst consts x

/-- An operand with the symbols that have a replacement replaced. -/
def Operand.replaceReads (r : String → Option (BitVec 64)) (o : Operand) : Operand :=
  if o.kind = .symbol then
    match o.name.bind r with
    | some v => .ofInt v
    | none => o
  else o

/-- An instruction with the symbols it reads replaced; the operand of an address stays. -/
def Inst.replaceReads (r : String → Option (BitVec 64)) (i : Inst) : Inst :=
  if i.op = .addressOf then i
  else
    { i with
      lhs := i.lhs.replaceReads r
      rhs := i.rhs.replaceReads r
      arguments := i.arguments.map (Operand.replaceReads r) }

theorem Operand.replaceReads_none : Operand.replaceReads (fun _ => none) = id := by
  funext o
  rw [Operand.replaceReads, bind_fun_none]
  exact ite_self _

theorem Inst.replaceReads_none : Inst.replaceReads (fun _ => none) = id := by
  funext i
  rw [Inst.replaceReads, Operand.replaceReads_none, List.map_id]
  exact ite_self _

namespace RgCandidate

variable (cand : RgCandidate)

/-- What the marking of a function does to a candidate. -/
def mark (fn : Function) (gen : ℕ) : RgCandidate := if fn.shadows cand.name then { cand with shadowGen := gen } else cand

/-- What a list of instructions does to a candidate. -/
def checkAll (gen : ℕ) (l : List Inst) : RgCandidate :=
  if cand.shadowGen ≠ gen ∧ ∃ i ∈ l, i.seenToWrite cand.name = true then { cand with disqualified := true } else cand

@[simp] theorem mark_name (fn : Function) (gen : ℕ) : (cand.mark fn gen).name = cand.name := by
  rw [mark, apply_ite RgCandidate.name, ite_self]

@[simp] theorem checkAll_name (gen : ℕ) (l : List Inst) : (cand.checkAll gen l).name = cand.name := by
  rw [checkAll, apply_ite RgCandidate.name, ite_self]

/-- Checking keeps the mark. -/
@[simp] theorem checkAll_shadowGen (gen : ℕ) (l : List Inst) : (cand.checkAll gen l).shadowGen = cand.shadowGen := by
  rw [checkAll, apply_ite RgCandidate.shadowGen, ite_self]

end RgCandidate

namespace RgTable

variable {table : RgTable} {gen : ℕ}

/-! ## One function -/

/-- The parameters mark the candidates of their names. -/
theorem markParameters_eq (names : List String) : table.markParameters gen names =
    table.map fun cand => if cand.name ∈ names then { cand with shadowGen := gen } else cand := by
  induction names generalizing table with
  | nil => simp [markParameters]
  | cons name rest ih =>
    show (table.update (some name) _).markParameters gen rest = _
    rw [ih, update, List.map_map]
    apply map_congr_left
    intro cand _
    by_cases heq : name = cand.name
    · simp [heq]
    · simp [heq, Ne.symm heq]

/-- A declaration that shadows a name. -/
def declares (i : Inst) (x : String) : Prop :=
  i.op = .declareLocal ∧ i.dest.isSymbol ∧ i.text.isSome ∧ i.dest.name = some x

instance (i : Inst) (x : String) : Decidable (declares i x) := inferInstanceAs (Decidable (_ ∧ _))

/-- The declarations mark the candidates of theirs. -/
theorem markLocals_eq (l : List Inst) : table.markLocals gen l =
    table.map fun cand => if ∃ i ∈ l, declares i cand.name then { cand with shadowGen := gen } else cand := by
  induction l generalizing table with
  | nil => simp [markLocals]
  | cons i rest ih =>
    have hstep : table.markLocals gen (i :: rest) =
        markLocals (table.map fun cand => if declares i cand.name then { cand with shadowGen := gen } else cand) gen
          rest := by
      show markLocals (if _ then _ else table) gen rest = _
      congr 1
      by_cases hdecl : i.op = .declareLocal ∧ i.dest.isSymbol ∧ i.text.isSome
      · rw [if_pos hdecl, update]
        simp only [declares, hdecl, true_and]
      · rw [if_neg hdecl]
        conv_lhs => rw [← List.map_id table]
        apply map_congr_left
        intro cand _
        rw [if_neg]
        · rfl
        rintro ⟨hop, hdest, htext, -⟩
        exact hdecl ⟨hop, hdest, htext⟩
    rw [hstep, ih, List.map_map]
    apply map_congr_left
    intro cand _
    by_cases hdecl : declares i cand.name
    · simp [hdecl]
    · simp [hdecl]

/-- Both together mark the candidates that the function shadows. -/
theorem markShadows_eq (fn : Function) : table.markShadows fn gen = table.map fun cand => cand.mark fn gen := by
  rw [markShadows, markParameters_eq, markLocals_eq, List.map_map]
  apply map_congr_left
  intro cand _
  rw [comp_apply, RgCandidate.mark, Function.shadows]
  by_cases hparam : cand.name ∈ fn.parameterNames
  · simp [hparam]
  · simp [hparam, declares]

/-- The candidates of some names that are not shadowed are disqualified. -/
def disqualifyIf (table : RgTable) (gen : ℕ) (p : String → Bool) : RgTable :=
  table.map fun cand => if cand.shadowGen ≠ gen ∧ p cand.name = true then { cand with disqualified := true } else cand

/-- Two tests disqualify what either of them does. -/
theorem disqualifyIf_disqualifyIf (p q : String → Bool) :
    (table.disqualifyIf gen p).disqualifyIf gen q = table.disqualifyIf gen fun x => p x || q x := by
  rw [disqualifyIf, disqualifyIf, disqualifyIf, List.map_map]
  apply map_congr_left
  intro cand _
  by_cases hgen : cand.shadowGen = gen
  · simp [hgen]
  · by_cases hp : p cand.name = true
    · simp [hgen, hp]
    · simp [hgen, hp]

/-- A test that nothing meets disqualifies nothing. -/
theorem disqualifyIf_false : table.disqualifyIf gen (fun _ => false) = table := by
  simp [disqualifyIf]

/-- The candidate of a name is disqualified. -/
theorem update_disqualify (name : Option String) :
    table.update name (fun cand => if cand.shadowGen ≠ gen then { cand with disqualified := true } else cand) =
      table.disqualifyIf gen fun x => name = some x := by
  apply map_congr_left
  intro cand _
  by_cases hname : name = some cand.name
  · simp [hname]
  · simp [hname]

/-- The check of one instruction disqualifies what it is seen to write. -/
theorem check_eq (i : Inst) : table.check gen i = table.disqualifyIf gen i.seenToWrite := by
  have hseen : i.seenToWrite = fun x =>
      (decide (i.op = .addressOf ∧ i.lhs.kind = .symbol) && decide (i.lhs.name = some x) ||
        decide (i.writesDestination ∧ i.dest.isSymbol) && decide (i.dest.name = some x)) ||
      decide (i.op = .inlineAsm) && inlineAsmBindsSymbol i.text x := by
    funext x
    simp [Inst.seenToWrite, Bool.and_assoc, Bool.or_assoc]
  rw [check, hseen, ← disqualifyIf_disqualifyIf, ← disqualifyIf_disqualifyIf, update_disqualify, update_disqualify]
  have hasm (t : RgTable) : (if i.op = .inlineAsm then
      t.map fun cand => if inlineAsmBindsSymbol i.text cand.name = true then
        (if cand.shadowGen ≠ gen then { cand with disqualified := true } else cand) else cand
      else t) = t.disqualifyIf gen fun x => decide (i.op = .inlineAsm) && inlineAsmBindsSymbol i.text x := by
    by_cases hop : i.op = .inlineAsm
    · rw [if_pos hop, disqualifyIf]
      apply map_congr_left
      intro cand _
      by_cases hbinds : inlineAsmBindsSymbol i.text cand.name = true
      · simp [hop, hbinds]
      · simp [hbinds]
    · simp [hop, disqualifyIf]
  have hif (t : RgTable) (p : Prop) [Decidable p] (q : String → Bool) :
      (if p then t.disqualifyIf gen q else t) = t.disqualifyIf gen fun x => decide p && q x := by
    by_cases h : p
    · simp [h]
    · simp [h, disqualifyIf_false]
  rw [hasm]
  simp only [hif]

/-- The checks of all the instructions, candidate by candidate. -/
theorem checkAll_eq (l : List Inst) : l.foldl (fun table i => table.check gen i) table =
    table.map fun cand => cand.checkAll gen l := by
  induction l generalizing table with
  | nil => simp [RgCandidate.checkAll]
  | cons i rest ih =>
    rw [foldl_cons, ih, check_eq, disqualifyIf, List.map_map]
    apply map_congr_left
    intro cand _
    rw [comp_apply, RgCandidate.checkAll, RgCandidate.checkAll]
    by_cases hgen : cand.shadowGen = gen
    · simp [hgen]
    · by_cases hseen : i.seenToWrite cand.name = true
      · simp [hgen, hseen]
      · simp [hgen, hseen]

end RgTable

/-! ## The first sweep -/

/-- What the first sweep does to a candidate. -/
def RgCandidate.sweep (cand : RgCandidate) (gen : ℕ) : List Function → RgCandidate
  | [] => cand
  | fn :: rest => ((cand.mark fn (gen + 1)).checkAll (gen + 1) fn.instructions).sweep (gen + 1) rest

/-- A candidate after the first sweep. -/
structure Swept (functions : List Function) (gen : ℕ) (cand cand' : RgCandidate) : Prop where
  name : cand'.name = cand.name
  value : cand'.value = cand.value
  gen_le : cand'.shadowGen ≤ gen
  disqualified : cand'.disqualified = true ↔ cand.disqualified = true ∨ seenWritten functions cand.name = true

/-- A global is written in a program if it is in the first function, unless shadowed there, or in the others. -/
theorem seenWritten_cons {fn : Function} {rest : List Function} {x : String} : seenWritten (fn :: rest) x = true ↔
    (fn.shadows x = false ∧ ∃ i ∈ fn.instructions, i.seenToWrite x = true) ∨ seenWritten rest x = true := by
  simp [seenWritten]

/-- The first sweep keeps the names. -/
theorem RgCandidate.sweep_name (cand : RgCandidate) (gen : ℕ) (functions : List Function) :
    (cand.sweep gen functions).name = cand.name := by
  induction functions generalizing cand gen with
  | nil => rfl
  | cons fn rest ih => rw [sweep, ih, checkAll_name, mark_name]

/-- It disqualifies exactly the candidates that some function is seen to write. -/
theorem RgCandidate.swept {cand : RgCandidate} {gen : ℕ} (hgen : cand.shadowGen ≤ gen) (functions : List Function) :
    Swept functions (gen + functions.length) cand (cand.sweep gen functions) := by
  induction functions generalizing cand gen with
  | nil => exact ⟨rfl, rfl, hgen, by simp [sweep, seenWritten]⟩
  | cons fn rest ih =>
    rw [sweep]
    have hmark : (cand.mark fn (gen + 1)).value = cand.value ∧
        (cand.mark fn (gen + 1)).disqualified = cand.disqualified ∧ (cand.mark fn (gen + 1)).shadowGen ≤ gen + 1 ∧
        ((cand.mark fn (gen + 1)).shadowGen ≠ gen + 1 ↔ fn.shadows cand.name = false) := by
      rw [mark]
      by_cases hshadows : fn.shadows cand.name = true
      · rw [if_pos hshadows]
        exact ⟨rfl, rfl, le_rfl, by simp [hshadows]⟩
      · rw [if_neg hshadows]
        refine ⟨rfl, rfl, by omega, ?_⟩
        rw [Bool.not_eq_true] at hshadows
        exact iff_of_true (by omega) hshadows
    have hname := cand.mark_name fn (gen + 1)
    obtain ⟨hvalue, hdisqualified, hle, hshadows⟩ := hmark
    generalize cand.mark fn (gen + 1) = marked at hname hvalue hdisqualified hle hshadows ⊢
    have hchecked : (marked.checkAll (gen + 1) fn.instructions).value = cand.value ∧
        ((marked.checkAll (gen + 1) fn.instructions).disqualified = true ↔ cand.disqualified = true ∨
          (fn.shadows cand.name = false ∧ ∃ i ∈ fn.instructions, i.seenToWrite cand.name = true)) := by
      rw [checkAll, ← hshadows, hname]
      split_ifs with hseen
      · exact ⟨hvalue, by simp [hseen]⟩
      · exact ⟨hvalue, by rw [hdisqualified, or_iff_left hseen]⟩
    have hrest := @ih (marked.checkAll (gen + 1) fn.instructions) (gen + 1)
      (by rw [checkAll_shadowGen]; exact hle)
    refine ⟨?_, hrest.value.trans hchecked.1, ?_, ?_⟩
    · rw [hrest.name, checkAll_name, hname]
    · rw [length_cons, Nat.add_comm rest.length, ← Nat.add_assoc]
      exact hrest.gen_le
    · rw [hrest.disqualified, hchecked.2, checkAll_name, hname, seenWritten_cons, or_assoc]

namespace RgTable

variable {table : RgTable} {gen : ℕ}

/-- The first sweep goes over each candidate on its own. -/
theorem firstSweep_eq (functions : List Function) : table.firstSweep gen functions =
    (table.map fun cand => cand.sweep gen functions, gen + functions.length) := by
  induction functions generalizing table gen with
  | nil => simp [firstSweep, RgCandidate.sweep]
  | cons fn rest ih =>
    rw [firstSweep, markShadows_eq, checkAll_eq, ih, List.map_map, List.map_map, length_cons,
      Nat.add_comm rest.length, Nat.add_assoc]
    rfl

/-! ## The second sweep -/

/-- The value of a candidate that is not disqualified. -/
def settled (table : RgTable) (x : String) : Option (BitVec 64) :=
  (table.find (some x)).bind fun cand => if cand.disqualified then none else some cand.value

/-- Candidates are found by their names. -/
theorem find_map {f : RgCandidate → RgCandidate} (hname : ∀ cand, (f cand).name = cand.name) (name : Option String) :
    RgTable.find (table.map f) name = (table.find name).map f := by
  cases name with
  | none => rfl
  | some name =>
    show find? _ (table.map f) = (find? _ table).map f
    rw [find?_map]
    congr 2
    funext cand
    rw [comp_apply, hname]

/-- Marking does not change what is settled. -/
theorem settled_markShadows (fn : Function) : (table.markShadows fn gen).settled = table.settled := by
  funext x
  rw [settled, settled, markShadows_eq, find_map fun cand => cand.mark_name fn gen]
  cases table.find (some x) with
  | none => rfl
  | some cand =>
    show (if (cand.mark fn gen).disqualified = true then none else some (cand.mark fn gen).value) = _
    rw [RgCandidate.mark]
    split <;> rfl

/-- An operand is folded just when its symbol is settled and not shadowed. -/
theorem foldOperand_eq (hgen : ∀ cand ∈ table, cand.shadowGen ≤ gen) (fn : Function) (o : Operand) :
    (table.markShadows fn (gen + 1)).foldOperand (gen + 1) o =
      o.replaceReads fun x => if fn.shadows x then none else table.settled x := by
  rw [foldOperand, Operand.replaceReads]
  by_cases hkind : o.kind = .symbol
  · rw [if_pos hkind, if_pos hkind, markShadows_eq, find_map fun cand => cand.mark_name fn (gen + 1)]
    cases hname : o.name with
    | none => rfl
    | some x =>
      rw [bind_some, settled]
      cases hfind : table.find (some x) with
      | none =>
        simp only [map_none, bind_none, ite_self]
      | some cand =>
        have hcand : cand ∈ table := List.mem_of_find?_eq_some hfind
        have hcandName : cand.name = x := by simpa using find?_some hfind
        have hle := hgen cand hcand
        rw [map_some, bind_some, RgCandidate.mark, hcandName]
        by_cases hshadows : fn.shadows x = true
        · simp [hshadows]
        · have hne : cand.shadowGen ≠ gen + 1 := by omega
          by_cases hdisq : cand.disqualified = true
          · simp [hshadows, hdisq]
          · simp [hshadows, hdisq, hne]
  · rw [if_neg hkind, if_neg hkind]

/-- The second sweep replaces the reads of what is settled and not shadowed. -/
theorem secondSweep_eq (hgen : ∀ cand ∈ table, cand.shadowGen ≤ gen) (functions : List Function) :
    table.secondSweep gen functions = functions.map fun fn => { fn with
      instructions := fn.instructions.map (Inst.replaceReads fun x => if fn.shadows x then none else table.settled x) } := by
  induction functions generalizing table gen with
  | nil => rfl
  | cons fn rest ih =>
    have hmarked : ∀ cand ∈ table.markShadows fn (gen + 1), cand.shadowGen ≤ gen + 1 := by
      rw [markShadows_eq]
      intro cand hcand
      obtain ⟨before, hbefore, rfl⟩ := List.mem_map.mp hcand
      have hle := hgen before hbefore
      rw [RgCandidate.mark]
      split
      · exact le_rfl
      · omega
    rw [secondSweep, ih hmarked, settled_markShadows, map_cons]
    congr 2
    apply map_congr_left
    intro i _
    rw [foldInst, Inst.replaceReads]
    have hoperand : (table.markShadows fn (gen + 1)).foldOperand (gen + 1) =
        Operand.replaceReads fun x => if fn.shadows x then none else table.settled x :=
      funext fun o => foldOperand_eq hgen fn o
    rw [hoperand]

/-! ## The table of constants -/

/-- A new candidate is found under its name. -/
theorem find_append (name : String) (v : BitVec 64) (x : String) :
    RgTable.find (table ++ [{ name := name, value := v }]) (some x) =
      (table.find (some x)).or (if name = x then some { name := name, value := v } else none) := by
  show find? _ (table ++ _) = _
  rw [find?_append]
  congr 1
  by_cases heq : name = x <;> simp [heq]

/-- The first constant of a name is the one that counts. -/
theorem find_addConst (const : GlobalIntConst) (x : String) :
    (table.addConst const).find (some x) =
      (table.find (some x)).or (if const.name = some x then some { name := x, value := const.value } else none) := by
  rw [addConst]
  cases hname : const.name with
  | none => simp
  | some name =>
    by_cases heq : name = x
    · subst heq
      cases hfind : table.find (some name) with
      | some cand => simp [hfind]
      | none => simp [hfind, find_append]
    · have hne : ¬ some name = some x := fun h => heq (some.inj h)
      simp only
      split_ifs
      · rw [or_none]
      · rw [find_append, if_neg heq]

/-- So it is when constants are looked up. -/
theorem lookupConst_cons (const : GlobalIntConst) (rest : List GlobalIntConst) (x : String) :
    lookupConst (const :: rest) x = if const.name = some x then some const.value else lookupConst rest x := by
  rw [lookupConst, lookupConst, find?_cons]
  by_cases hname : const.name = some x <;> simp [hname]

/-- The table holds for each name the constant that is looked up. -/
theorem find_ofConsts (consts : List GlobalIntConst) (x : String) :
    (ofConsts consts).find (some x) = (lookupConst consts x).map fun v => { name := x, value := v } := by
  suffices h : ∀ t : RgTable, RgTable.find (consts.foldl addConst t) (some x) =
      (t.find (some x)).or ((lookupConst consts x).map fun v => { name := x, value := v }) by
    exact (h []).trans none_or
  induction consts with
  | nil => simp [lookupConst]
  | cons const rest ih =>
    intro t
    rw [foldl_cons, ih, find_addConst, lookupConst_cons, Option.or_assoc]
    congr 1
    by_cases hname : const.name = some x <;> simp [hname]

/-- In the beginning nothing is marked. -/
theorem shadowGen_ofConsts (consts : List GlobalIntConst) : ∀ cand ∈ ofConsts consts, cand.shadowGen ≤ 0 := by
  suffices h : ∀ t : RgTable, (∀ cand ∈ t, cand.shadowGen ≤ 0) → ∀ cand ∈ consts.foldl addConst t, cand.shadowGen ≤ 0 by
    exact h [] (by simp)
  induction consts with
  | nil => exact fun t ht => ht
  | cons const rest ih =>
    intro t ht
    apply ih
    rw [addConst]
    cases const.name with
    | none => exact ht
    | some name =>
      simp only
      split_ifs
      · exact ht
      · intro cand hcand
        rcases mem_append.mp hcand with hin | hin
        · exact ht cand hin
        · rw [mem_singleton.mp hin]

end RgTable

/-- The pass replaces what a function reads of the globals that are not shadowed in it and that no function of the
program is seen to write. -/
theorem foldReadonlyGlobals_eq (consts : List GlobalIntConst) (functions : List Function) :
    foldReadonlyGlobals consts functions = functions.map fun fn =>
      { fn with instructions := fn.instructions.map (Inst.replaceReads (replacement consts functions fn)) } := by
  rw [foldReadonlyGlobals]
  by_cases hempty : consts.isEmpty = true
  · have hnone (fn : Function) : replacement consts functions fn = fun _ => none := by
      funext x
      rw [replacement, lookupConst, List.isEmpty_iff.mp hempty]
      exact ite_self _
    rw [if_pos hempty]
    simp only [hnone, Inst.replaceReads_none, List.map_id]
    exact (List.map_id _).symm
  · rw [if_neg hempty]
    have hgen := RgTable.shadowGen_ofConsts consts
    have hswept (cand : RgCandidate) (hcand : cand ∈ RgTable.ofConsts consts) :=
      RgCandidate.swept (hgen cand hcand) functions
    rw [RgTable.firstSweep_eq]
    simp only
    rw [RgTable.secondSweep_eq]
    · apply map_congr_left
      intro fn _
      congr 3
      funext x
      rw [replacement, RgTable.settled, RgTable.find_map fun cand => cand.sweep_name 0 functions,
        RgTable.find_ofConsts]
      cases lookupConst consts x with
      | none =>
        simp only [map_none, bind_none, ite_self]
      | some v =>
        have hcand := @RgCandidate.swept { name := x, value := v } 0 le_rfl functions
        rw [map_some, map_some, bind_some, hcand.value]
        have hdisqualified := hcand.disqualified
        by_cases hshadows : fn.shadows x = true
        · rw [if_pos hshadows, if_pos (Or.inl hshadows)]
        · rw [if_neg hshadows]
          simp only [hshadows, hdisqualified, Bool.false_eq_true, false_or]
    · intro cand hcand
      obtain ⟨before, hbefore, rfl⟩ := List.mem_map.mp hcand
      exact (hswept before hbefore).gen_le

end Mettle.Ir

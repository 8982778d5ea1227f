import Mettle.Ir.Basic
import Mettle.Lib.Sweep

/-!
# Effects over the call graph

`ir_effects.c`: what each function performs, requires and calls (`scan_function`), the propagation of
both over the call graph (`propagate`) and the checks on the outcome (`check_forbids`, `check_roots`).
An effect is a bit, its position in the table of effects; the bit after the last stands for a call of
unknown effects. Bit vectors are finite sets of bits. The texts of the diagnostics, the call chains in
them, the counters, the checks of obligations and of races and the instrumentation are left out.
-/

namespace Mettle.Ir.Effects

/-- `IRInstruction` with the fields that the effect analysis reads. -/
structure EInst extends Inst where
  divergentCall : Bool := false
  allocates : Bool := false
  effectSignature : Option String := none
  deriving DecidableEq, Repr, Inhabited

/-- `IRFunction`, as far as the effect analysis reads it. -/
structure EFunction where
  name : Option String := none
  instructions : List EInst := []
  effectsWith : List String := []
  effectsForbids : List String := []
  effectsRequires : List String := []
  effectsProvides : List String := []
  isRule : Bool := false
  isInterrupt : Bool := false
  isNaked : Bool := false
  isKernel : Bool := false
  isTest : Bool := false
  isExported : Bool := false
  deriving DecidableEq, Repr, Inhabited

/-- `IRModuleSymbol`, as far as the effect analysis reads it. -/
structure ModuleSymbol where
  name : String
  effectClause : Option String := none
  deriving DecidableEq, Repr, Inhabited

/-- `IRProgram`. -/
structure Program where
  functions : List EFunction := []
  moduleSymbols : List ModuleSymbol := []
  deriving DecidableEq, Repr, Inhabited

/-- `IREffectInput`. -/
structure EffectInput where
  effects : List String := []
  libraryBuild : Bool := false
  deriving DecidableEq, Repr, Inhabited

/-- The sorted array of names that `find_fn` searches. When two functions have one name, it finds one
of them. -/
structure NameIndex (P : Program) where
  find : String → Option ℕ
  sound : ∀ {name i}, find name = some i → ∃ fn, P.functions[i]? = some fn ∧ fn.name = some name
  complete : ∀ {name}, find name = none → ∀ fn ∈ P.functions, fn.name ≠ some name

/-- The index that finds the first function of a name. -/
def NameIndex.first (P : Program) : NameIndex P where
  find name := P.functions.findIdx? fun fn => fn.name = some name
  sound h := by
    obtain ⟨hlt, hname, -⟩ := List.findIdx?_eq_some_iff_getElem.mp h
    exact ⟨_, List.getElem?_eq_getElem hlt, of_decide_eq_true hname⟩
  complete h fn hfn := of_decide_eq_false (List.findIdx?_eq_none_iff.mp h fn hfn)

/-- `ir_effects_name_is_allocator`. -/
def nameIsAllocator (name : String) : Bool :=
  name ∈ ["malloc", "calloc", "realloc", "aligned_alloc", "_aligned_malloc", "strdup", "_strdup", "wcsdup",
    "HeapAlloc", "VirtualAlloc", "mmap", "mettle_heap_zeroed"]

/-- `ir_effects_name_is_known_clean`. -/
def nameIsKnownClean (name : String) : Bool :=
  decide ("crash_trap".toList <:+: name.toList) ||
    ["mettle_effects_", "mettle_refine_", "mettle_safety_", "mettle_trace_"].any
      (fun start => decide (start.toList <+: name.toList)) ||
    decide (name ∈ ["sqrt", "sqrtf", "sin", "sinf", "cos", "cosf", "tan", "tanf", "exp", "expf", "log",
      "logf", "log2", "log2f", "pow", "powf", "fabs", "fabsf", "floor", "floorf", "ceil", "ceilf",
      "round", "roundf", "fmod", "fmodf", "atan", "atanf", "atan2", "atan2f", "memcpy", "memset",
      "memmove", "memcmp", "strlen", "strcmp", "strncmp", "abs", "labs", "llabs", "free"])

namespace EffectInput

variable (input : EffectInput)

/-- `bit_count`. -/
def bitCount : ℕ := input.effects.length + 1

/-- The bit of a call of unknown effects. -/
def unknownBit : ℕ := input.bitCount - 1

/-- `effect_bit`. -/
def effectBit (name : String) : Option ℕ :=
  if name = "unknown" then some input.unknownBit else input.effects.idxOf? name

/-- `clause_bits`. -/
def clauseBits : List String → Option (Finset ℕ)
  | [] => some ∅
  | name :: rest =>
    match input.effectBit name with
    | some bit => (clauseBits rest).map (insert bit)
    | none => if name = "none" then clauseBits rest else none

/-- One name of `parse_name_list`, read backwards into the buffer of 128 bytes. -/
def listedName (pending : List Char) : Option (Finset ℕ) :=
  let name := String.ofList pending.reverse
  if pending = [] ∨ 128 ≤ name.utf8ByteSize then none
  else if name = "none" then some ∅
  else (input.effectBit name).map ({·})

/-- `parse_name_list`; `pending` is the part of the current name that has been read. -/
def parseNames (pending : List Char) : List Char → Option (Finset ℕ)
  | [] => if pending = [] then some ∅ else input.listedName pending
  | ',' :: rest => do return (← input.listedName pending) ∪ (← parseNames [] rest)
  | c :: rest => parseNames (c :: pending) rest

/-- `parse_name_list`. -/
def parseNameList (text : List Char) : Option (Finset ℕ) := input.parseNames [] text

/-- What an indirect call is declared to perform and to require. -/
structure Signature where
  performs : Finset ℕ := ∅
  closed : Bool := false
  requires : Finset ℕ := ∅

/-- The loop of `parse_signature`. -/
def parseClauses (sig : Signature) (text : List Char) : Option Signature :=
  let p := text.dropWhile (· = ' ')
  if p = [] then some sig
  else if "with ".toList <+: p then
    let body := p.drop 5
    match input.parseNameList (body.takeWhile (· ≠ ' ')) with
    | some bits => parseClauses { sig with performs := sig.performs ∪ bits, closed := true }
        (body.dropWhile (· ≠ ' '))
    | none => none
  else if "requires ".toList <+: p then
    let body := p.drop 9
    match input.parseNameList (body.takeWhile (· ≠ ' ')) with
    | some bits => parseClauses { sig with requires := sig.requires ∪ bits } (body.dropWhile (· ≠ ' '))
    | none => none
  else none
  termination_by text.length
  decreasing_by
  all_goals
    have hp : (text.dropWhile (· = ' ')).length ≤ text.length := List.length_dropWhile_le _ _
    have hpos : 0 < (text.dropWhile (· = ' ')).length := List.length_pos_iff.mpr ‹_›
    refine (List.length_dropWhile_le _ _).trans_lt ?_
    simp only [List.length_drop]
    omega

/-- `parse_signature`. -/
def parseSignature (signature : Option String) : Option Signature :=
  if signature = some "open" then some {} else input.parseClauses {} (signature.getD "").toList

/-- `group_mask`. -/
def groupMask : Finset ℕ :=
  (input.effectBit "Warp").toFinset ∪ (input.effectBit "Block").toFinset

end EffectInput

/-- `EFn`: what the scan finds out about a function. A callee is recorded with the first place that
calls it, an indirect call with what it requires. -/
structure EFn where
  sources : Finset ℕ := ∅
  performsClause : Finset ℕ := ∅
  forbids : Finset ℕ := ∅
  requires : Finset ℕ := ∅
  provides : Finset ℕ := ∅
  callees : List (ℕ × ℕ) := []
  sourceSites : ℕ → Option ℕ := fun _ => none
  indirect : List (ℕ × Finset ℕ) := []

namespace EFn

/-- `add_callee`. -/
def addCallee (efn : EFn) (callee site : ℕ) : EFn :=
  if efn.callees.any (·.1 = callee) then efn
  else { efn with callees := efn.callees ++ [(callee, site)] }

/-- `add_indirect`. -/
def addIndirect (efn : EFn) (site : ℕ) (requires : Finset ℕ) : EFn :=
  { efn with indirect := efn.indirect ++ [(site, requires)] }

/-- `note_source` for every bit of a set. -/
def noteSources (efn : EFn) (bits : Finset ℕ) (site : Option ℕ) : EFn :=
  { efn with
    sources := efn.sources ∪ bits
    sourceSites := fun bit => if bit ∈ bits then (efn.sourceSites bit).or site else efn.sourceSites bit }

/-- `note_source` for an effect that the table may not have. -/
def noteSource (efn : EFn) (bit : Option ℕ) (site : ℕ) : EFn := efn.noteSources bit.toFinset (some site)

end EFn

section Scan

variable (P : Program) (index : NameIndex P) (input : EffectInput)

/-- `callee_is_defined`. -/
def Program.calleeIsDefined (i : ℕ) : Bool := (P.functions.getD i {}).instructions ≠ []

/-- The defined function that a call by name goes to. -/
def Program.definedCallee (name : String) : Option ℕ :=
  match index.find name with
  | some i => if P.calleeIsDefined i then some i else none
  | none => none

/-- `extern_performs`. -/
def externPerforms (efn : EFn) (name : String) (site : ℕ) : Option EFn :=
  let effectsWith := ((index.find name).map fun i => (P.functions.getD i {}).effectsWith).getD []
  if effectsWith ≠ [] then
    (input.clauseBits effectsWith).map fun bits => efn.noteSources bits (some site)
  else
    match (P.moduleSymbols.find? fun symbol => symbol.name = name).bind (·.effectClause) with
    | some text => (input.parseNameList text.toList).map fun bits => efn.noteSources bits (some site)
    | none =>
      if nameIsKnownClean name then some efn
      else some (efn.noteSource (input.effectBit "alloc") site)

/-- The `IR_OP_CALL` case of `scan_function`; a call of a system call is a call of `__mtl_syscall`. -/
def scanCall (efn : EFn) (name : String) (site : ℕ) : Option EFn :=
  if name = "__mtl_syscall" then some (efn.noteSource (input.effectBit "syscall") site)
  else
    match P.definedCallee index name with
    | some callee => some (efn.addCallee callee site)
    | none =>
      if nameIsAllocator name then some (efn.noteSource (input.effectBit "alloc") site)
      else externPerforms P index input efn name site

/-- The `IR_OP_CALL_INDIRECT` case of `scan_function`. -/
def scanIndirect (efn : EFn) (signature : Option String) (site : ℕ) : Option EFn :=
  (input.parseSignature signature).map fun sig =>
    (efn.noteSources (if sig.closed then sig.performs else {input.unknownBit}) (some site)).addIndirect site
      sig.requires

/-- The switch of `scan_function`. -/
def scanOp (isKernel : Bool) (efn : EFn) (site : ℕ) (insn : EInst) : Option EFn :=
  match insn.op with
  | .barrier =>
    some (if isKernel then efn
      else { efn with requires := efn.requires ∪ (input.effectBit "Block").toFinset })
  | .new => some (efn.noteSource (input.effectBit "alloc") site)
  | .inlineAsm => some (efn.noteSource (input.effectBit "asm") site)
  | .call =>
    match insn.text with
    | some name => scanCall P index input efn name site
    | none => some efn
  | .callIndirect => scanIndirect input efn insn.effectSignature site
  | _ => some efn

/-- One instruction of `scan_function`. -/
def scanInst (isKernel : Bool) (efn : EFn) (site : ℕ) (insn : EInst) : Option EFn :=
  (scanOp P index input isKernel efn site insn).map fun efn =>
    if insn.allocates then efn.noteSource (input.effectBit "alloc") site else efn

/-- The loop of `scan_function`. -/
def scanInsts (isKernel : Bool) : ℕ → List EInst → EFn → Option EFn
  | _, [], efn => some efn
  | site, insn :: rest, efn =>
    (scanInst P index input isKernel efn site insn).bind (scanInsts isKernel (site + 1) rest)

/-- `scan_function`. -/
def scanFunction (fn : EFunction) : Option EFn := do
  let performsClause ← input.clauseBits fn.effectsWith
  let forbids ← input.clauseBits fn.effectsForbids
  let requires ← input.clauseBits fn.effectsRequires
  let provides ← input.clauseBits fn.effectsProvides
  let efn : EFn := { performsClause, forbids, requires, provides }
  scanInsts P index input fn.isKernel 0 fn.instructions (efn.noteSources performsClause none)

end Scan

/-- The context of the analysis after the scan. -/
structure Ctx where
  program : Program
  input : EffectInput
  fns : List EFn

/-- What the checks report. -/
inductive Finding
  /-- `F0001`: the function forbids the effect and performs it. -/
  | forbids (function bit : ℕ)
  /-- `F0002`: the root needs the effect. -/
  | needs (function bit : ℕ)
  deriving DecidableEq, Repr

namespace Ctx

variable (ctx : Ctx)

def fn (i : ℕ) : EFunction := ctx.program.functions.getD i {}

def efn (i : ℕ) : EFn := ctx.fns.getD i {}

/-- `fn_count`. -/
def fnCount : ℕ := ctx.program.functions.length

/-- The flag of a call site; no instruction, no flag. -/
def divergentAt (i site : ℕ) : Bool := ((ctx.fn i).instructions.getD site {}).divergentCall

/-- The first loop of `propagate` at one function: the performed effects of its callees are added one
callee after the other. -/
def performsVisit (performs : ℕ → Finset ℕ) (i : ℕ) : (ℕ → Finset ℕ) × Bool :=
  Lib.sweep (fun performs c =>
    (Function.update performs i (performs i ∪ performs c), decide (¬ performs c ⊆ performs i)))
    ((ctx.efn i).callees.map (·.1)) performs

/-- What a function provides to the call at a site. -/
def reaching (i site : ℕ) : Finset ℕ :=
  if ctx.divergentAt i site then (ctx.efn i).provides \ ctx.input.groupMask else (ctx.efn i).provides

/-- `gathered`. -/
def gathered (needs : ℕ → Finset ℕ) (i : ℕ) : Finset ℕ :=
  let calls := (ctx.efn i).callees.foldl (fun bits c => bits ∪ (needs c.1 \ ctx.reaching i c.2))
    (ctx.efn i).requires
  (ctx.efn i).indirect.foldl (fun bits k => bits ∪ (k.2 \ (ctx.efn i).provides)) calls

/-- The second loop of `propagate` at one function. -/
def needsVisit (needs : ℕ → Finset ℕ) (i : ℕ) : (ℕ → Finset ℕ) × Bool :=
  (Function.update needs i (needs i ∪ ctx.gathered needs i), decide (¬ ctx.gathered needs i ⊆ needs i))

/-- A sweep that changes something sets a bit, so the loops of `propagate` make no more rounds. -/
def rounds : ℕ := ctx.fnCount * ctx.input.bitCount + 1

/-- `propagate`: what the functions perform. -/
def performs : Option (ℕ → Finset ℕ) :=
  Lib.untilStable ctx.performsVisit (List.range ctx.fnCount) ctx.rounds fun i => (ctx.efn i).sources

/-- `propagate`: what the functions need. -/
def needs : Option (ℕ → Finset ℕ) :=
  Lib.untilStable ctx.needsVisit (List.range ctx.fnCount) ctx.rounds fun _ => ∅

/-- `check_forbids`. -/
def checkForbids (performs : ℕ → Finset ℕ) : List Finding :=
  (List.range ctx.fnCount).flatMap fun i =>
    ((List.range ctx.input.bitCount).filter fun bit =>
      decide ((if bit + 1 = ctx.input.bitCount then (ctx.efn i).forbids ≠ ∅ else bit ∈ (ctx.efn i).forbids) ∧
        bit ∈ performs i)).map (.forbids i)

/-- `is_root`. -/
def isRoot (i : ℕ) : Bool :=
  let fn := ctx.fn i
  if fn.instructions = [] ∨ fn.isRule then false
  else if fn.name = some "main" then true
  else if fn.isInterrupt ∨ fn.isNaked ∨ fn.isKernel ∨ fn.isTest then true
  else ctx.input.libraryBuild && fn.isExported

/-- `check_roots`. -/
def checkRoots (needs : ℕ → Finset ℕ) : List Finding :=
  ((List.range ctx.fnCount).filter ctx.isRoot).flatMap fun i =>
    ((List.range ctx.input.bitCount).filter fun bit => decide (bit ∈ needs i)).map (.needs i)

end Ctx

/-- The outcome of the analysis. -/
structure Analysis where
  ctx : Ctx
  performs : ℕ → Finset ℕ
  needs : ℕ → Finset ℕ
  findings : List Finding

/-- The context that the scans of all functions build. -/
def effectsBuild (P : Program) (index : NameIndex P) (input : EffectInput) : Option Ctx :=
  (P.functions.mapM (scanFunction P index input)).map fun fns => { program := P, input, fns }

/-- `effects_analyze`; `trust` is the environment variable `METTLE_TRUST_EFFECTS`. -/
def effectsAnalyze (trust : Bool) (P : Program) (index : NameIndex P) (input : EffectInput) :
    Option Analysis := do
  let ctx ← effectsBuild P index input
  let performs ← ctx.performs
  let needs ← ctx.needs
  let findings := if trust then [] else ctx.checkForbids performs ++ ctx.checkRoots needs
  return { ctx, performs, needs, findings }

end Mettle.Ir.Effects

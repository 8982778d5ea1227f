import Mettle.Ir.Fold

/-!
# Alias classes of types

The type facts of `ir_optimize_alias.c`: under which classes a program views what it points to, found per root
from casts, pointer assignments, arguments and returned pointers, and the classes that are mixed by that
(`punned`). The hash indexes over functions, types and definitions find the first entry of a name.
-/

namespace Mettle.Ir

/-- `IRAliasClassId`. -/
inductive AliasClass where
  | none | pointer | i8 | i16 | i32 | i64 | f32 | f64 | f16 | bf16
  deriving DecidableEq, Repr, Inhabited

namespace AliasClass

/-- The classes by their numbers; there are `IR_ALIAS_CLASS_COUNT`. -/
def all : List AliasClass := [.none, .pointer, .i8, .i16, .i32, .i64, .f32, .f64, .f16, .bf16]

/-- `alias_class_of_type`. -/
def ofType : Option TypeKind → AliasClass
  | some .pointer | some .functionPointer | some .string => .pointer
  | some .int8 | some .uint8 | some .bool => .i8
  | some .int16 | some .uint16 => .i16
  | some .int32 | some .uint32 => .i32
  | some .int64 | some .uint64 => .i64
  | some .float32 => .f32
  | some .float64 => .f64
  | some .float16 => .f16
  | some .bfloat16 => .bf16
  | _ => .none

end AliasClass

/-- An entry of `type_registry`, as far as the classes depend on it. -/
structure RegisteredType where
  name : String
  kind : TypeKind
  base : Option TypeKind := none
  payloads : List (Option TypeKind) := []
  deriving DecidableEq, Repr, Inhabited

/-- `IRProgram`, as far as the classes depend on it. -/
structure TypedProgram where
  functions : List Function
  types : List RegisteredType := []
  deriving DecidableEq, Repr, Inhabited

namespace TypedProgram

variable (P : TypedProgram)

/-- `ir_program_lookup_type`. -/
def lookupType (name : String) : Option RegisteredType := P.types.find? fun t => t.name = name

/-- The class of a type that is only known as the text before a star. -/
def stemClass (stem : List Char) : AliasClass :=
  if stem.getLast? = some '*' then .pointer
  else
    match P.lookupType (String.ofList stem) with
    | some t => .ofType (some t.kind)
    | none =>
      if stem = "rawptr".toList ∨ stem = "cstring".toList ∨ stem = "string".toList then .pointer else .none

/-- `alias_pointee_class`. -/
def pointeeClass (typeName : Option String) : AliasClass :=
  match typeName with
  | none => .none
  | some name =>
    match P.lookupType name with
    | some { kind := .pointer, base, .. } => .ofType base
    | _ =>
      let text := name.toList
      if text.length < 2 ∨ text.getLast? ≠ some '*' ∨ 128 ≤ text.length - 1 then .none else P.stemClass text.dropLast

end TypedProgram

namespace Function

variable (fn : Function)

/-- The instructions that `alias_defs_table_for` counts as definitions of a name. -/
def aliasDefs (kind : OperandKind) (name : String) : List ℕ :=
  (List.range fn.instructions.length).filter fun i =>
    (fn.insn i).op ≠ .declareLocal ∧ (fn.insn i).dest.kind = kind ∧ (fn.insn i).dest.name = some name

/-- `alias_unique_def`. -/
def aliasUniqueDef (kind : OperandKind) (name : String) : Option ℕ :=
  match fn.aliasDefs kind name with
  | [i] => some i
  | _ => none

/-- `alias_symbol_owner`. -/
def aliasSymbolOwner (name : String) : String :=
  if name ∈ fn.parameterNames ∨ fn.localDeclaredType name ≠ none then fn.name else "@global"

end Function

/-- `alias_name_is_fresh_allocator`. -/
def isFreshAllocator (name : String) : Bool :=
  name ∈ ["malloc", "calloc", "aligned_alloc", "_aligned_malloc", "strdup", "_strdup", "mettle_heap_zeroed"]

/-- What fits a root of 256 bytes. -/
def rootText (text : String) : String := String.ofList (text.toList.take 255)

/-- `alias_view_root`, with the depth that is left. -/
def Function.viewRoot (fn : Function) : ℕ → Operand → String
  | 0, _ => "opaque"
  | depth + 1, operand =>
    let ofDef : Option ℕ → String
      | none => "opaque"
      | some i =>
        let d := fn.insn i
        if d.op = .assign ∨ d.op = .cast then viewRoot fn depth d.lhs
        else if d.op = .addressOf ∧ d.lhs.kind = .symbol ∧ d.lhs.name.isSome then
          let name := d.lhs.name.getD ""
          rootText ("addr@" ++ fn.aliasSymbolOwner name ++ "#" ++ name)
        else if d.op = .call ∧ d.text.isSome then
          let callee := d.text.getD ""
          if isFreshAllocator callee then rootText ("alloc@" ++ fn.name ++ "#" ++ Nat.repr i)
          else rootText ("ret@" ++ callee)
        else if d.op = .load then "load"
        else "opaque"
    match operand.name with
    | none => "opaque"
    | some name =>
      if operand.kind = .symbol then
        if name ∈ fn.parameterNames then rootText ("param@" ++ fn.name ++ "#" ++ name)
        else if (fn.aliasDefs .symbol name).length ≠ 1 then rootText ("sym@" ++ fn.name ++ "#" ++ name)
        else ofDef (fn.aliasUniqueDef .symbol name)
      else if operand.kind = .temp then ofDef (fn.aliasUniqueDef .temp name)
      else "opaque"

/-- The root of an operand: `IR_ALIAS_MAX_DEPTH` is `6`. -/
def Function.aliasViewRoot (fn : Function) (operand : Operand) : String := fn.viewRoot 7 operand

/-- `alias_destination_pointer_type`. -/
def Function.destinationPointerType (fn : Function) (i : Inst) : Option String :=
  if i.op = .cast then i.text
  else if i.op ≠ .assign ∨ i.dest.kind ≠ .symbol then none
  else
    i.dest.name.bind fun name =>
      if name ∈ fn.parameterNames then fn.parameterTypes.getD (fn.parameterNames.idxOf name) none
      else fn.localDeclaredType name

/-! ## Views -/

namespace TypedProgram

variable (P : TypedProgram)

/-- `ir_program_find_function`. -/
def findFunction (name : Option String) : Option Function :=
  name.bind fun name => P.functions.find? fun fn => fn.name = name

/-- The views an instruction is noted for, in order. -/
def instViews (fn : Function) (i : Inst) : List (String × AliasClass) :=
  if i.op = .inlineAsm then []
  else
    let view (operand : Operand) (type : Option String) : List (String × AliasClass) :=
      let klass := P.pointeeClass type
      if klass = .none then [] else [(fn.aliasViewRoot operand, klass)]
    let argument (callee : Function) (a : ℕ) := view (i.arguments.getD a {}) (callee.parameterTypes.getD a none)
    view i.lhs (fn.destinationPointerType i) ++
      (if i.op = .call then
        match P.findFunction i.text with
        | some callee =>
          (List.range (min i.arguments.length callee.parameterNames.length)).flatMap (argument callee)
        | none => []
      else []) ++
      if i.op = .return ∧ fn.returnTypeName ≠ none then view i.lhs fn.returnTypeName else []

end TypedProgram

/-- `IRAliasViewEntry`. -/
structure AliasViewEntry where
  root : String
  classes : AliasClass → Bool

/-- `alias_views_note`. -/
def viewsNote (views : List AliasViewEntry) (root : String) (klass : AliasClass) : List AliasViewEntry :=
  if klass = .none then views
  else
    match views.findIdx? fun e => e.root = root with
    | some i => views.modify i fun e => { e with classes := Function.update e.classes klass true }
    | none => views ++ [⟨root, Function.update (fun _ => false) klass true⟩]

/-- How many classes are set. -/
def distinctClasses (classes : AliasClass → Bool) : ℕ := AliasClass.all.countP classes

/-- The classes that are set become mixed, if there are two. -/
def punnTogether (punned classes : AliasClass → Bool) : AliasClass → Bool :=
  if 2 ≤ distinctClasses classes then fun c => punned c || classes c else punned

namespace TypedProgram

variable (P : TypedProgram)

/-- `alias_collect_views`: the views, and whether everything is mixed. -/
def collectViews : List AliasViewEntry × Bool :=
  P.functions.foldl (fun views fn =>
    fn.instructions.foldl (fun (views : List AliasViewEntry × Bool) i =>
      if i.op = .inlineAsm then (views.1, true)
      else ((P.instViews fn i).foldl (fun views v => viewsNote views v.1 v.2) views.1, views.2)) views) ([], false)

/-- `seen` in `alias_punn_overlapping_payloads`. -/
def payloadClasses (t : RegisteredType) : AliasClass → Bool :=
  t.payloads.foldl (fun seen payload =>
    let klass := AliasClass.ofType payload
    if klass = .none then seen else Function.update seen klass true) fun _ => false

/-- `alias_punn_overlapping_payloads`. -/
def punnOverlappingPayloads (punned : AliasClass → Bool) : AliasClass → Bool :=
  P.types.foldl (fun punned t =>
    if t.kind ≠ .taggedEnum then punned else punnTogether punned (payloadClasses t)) punned

/-- `g_alias_punned` after `alias_build_type_facts`. -/
def punned : AliasClass → Bool :=
  let views := P.collectViews
  P.punnOverlappingPayloads
    (views.1.foldl (fun punned e => punnTogether punned e.classes) fun c => c = .none ∨ views.2 = true)

/-- `ir_alias_classes_distinct` after `ir_alias_facts_build`; `skipped` says that the facts are not built. -/
def classesDistinct (skipped : Bool) (a b : ℕ) : Bool :=
  if P.functions = [] ∨ skipped = true then false
  else
    match AliasClass.all[a]?, AliasClass.all[b]? with
    | some classA, some classB => a ≠ b ∧ ¬ (P.punned classA = true ∨ P.punned classB = true)
    | _, _ => false

end TypedProgram

end Mettle.Ir

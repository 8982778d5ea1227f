import Mettle.Lib.Worklist
import Mettle.Linker.Sections

/-!
# Collecting the sections that nothing refers to

Before the sections are merged, the linker marks those that the program can need (`linker/symbol_resolve.c`). It
starts from the sections that it never drops and from the one that defines the entry point, and follows relocations:
to the section that defines the symbol in the object itself, or to the one that a table of all external definitions
names. What is not marked and may be dropped is dead.

The table of the source is a hash table. It is a list here, and a name is looked up in it.
-/

namespace Mettle.Linker

/-- `LINK_SECTION_INDEX_UNDEFINED`. -/
def linkSectionIndexUndefined : ℤ := -1

/-- `link_section_is_granular`. -/
def linkSectionIsGranular (name : String) : Bool :=
  name.toList.contains '$' || (name.toList.head? = some '.' && (name.toList.drop 1).contains '.')

/-- `link_section_is_gc_eligible`. -/
def linkSectionIsGcEligible (s : LinkSection) : Bool :=
  linkSectionIsGranular s.name &&
    match s.kind with
    | .text | .rdata | .data | .bss => true
    | _ => false

/-- The section that a symbol is defined in, when it is one of the object's. -/
def LinkObject.sectionOf (object : LinkObject) (symbol : LinkSymbol) : Option ℕ :=
  if 0 ≤ symbol.sectionIndex ∧ symbol.sectionIndex.toNat < object.sections.length then
    some symbol.sectionIndex.toNat
  else none

/-! ## The table of definitions -/

/-- `GcDefinition`. -/
structure GcDefinition where
  name : String
  objectIndex : ℕ
  sectionIndex : ℕ
  isRuntimeDefault : Bool
  deriving DecidableEq, Repr

/-- `gc_find_definition`. -/
def gcFindDefinition (table : List GcDefinition) (name : String) : Option GcDefinition :=
  table.find? fun held => held.name = name

/-- `gc_insert_definition`: an ordinary definition replaces a runtime default. -/
def gcInsertDefinition (table : List GcDefinition) (definition : GcDefinition) : Option (List GcDefinition) :=
  match gcFindDefinition table definition.name with
  | none => some (table ++ [definition])
  | some held =>
    if held.isRuntimeDefault = definition.isRuntimeDefault then none
    else if held.isRuntimeDefault && !definition.isRuntimeDefault then
      some (table.map fun held => if held.name = definition.name then definition else held)
    else some table

/-- The definition that a symbol of an object is, if it is one. -/
def gcDefinition (input : LinkedInputObject) (objectIndex : ℕ) (symbol : LinkSymbol) : Option GcDefinition :=
  if symbol.isAuxiliary || !symbol.isExternal then none
  else
    symbol.name.bind fun name =>
      (input.object.sectionOf symbol).map fun sectionIndex =>
        { name, objectIndex, sectionIndex, isRuntimeDefault := input.isRuntimeDefault }

/-- The external definitions of all objects, in their order. -/
def gcDefinitions (inputs : List LinkedInputObject) : List GcDefinition :=
  inputs.zipIdx.flatMap fun (input, objectIndex) =>
    input.object.symbols.filterMap (gcDefinition input objectIndex)

/-! ## Marking -/

/-- `GcWorkItem`. -/
structure GcWorkItem where
  objectIndex : ℕ
  sectionIndex : ℕ
  deriving DecidableEq, Repr

/-- `live` and `worklist`, and the flags `symbol_gc_referenced` of each object. -/
structure GcState where
  worklist : Lib.Worklist GcWorkItem := {}
  referenced : ℕ × ℕ → Bool := fun _ => false

/-- The section that a relocation to a symbol of an object leads to. -/
def gcTarget (table : List GcDefinition) (object : LinkObject) (objectIndex : ℕ) (symbol : LinkSymbol) :
    Option GcWorkItem :=
  if symbol.isAuxiliary then none
  else
    match object.sectionOf symbol with
    | some sectionIndex => some ⟨objectIndex, sectionIndex⟩
    | none =>
      if symbol.sectionIndex = linkSectionIndexUndefined then
        symbol.name.bind fun name =>
          (gcFindDefinition table name).map fun definition => ⟨definition.objectIndex, definition.sectionIndex⟩
      else none

/-- The body of the loop over the relocations of a section. -/
def gcVisit (table : List GcDefinition) (object : LinkObject) (objectIndex : ℕ) (state : GcState)
    (relocation : LinkReloc) : GcState :=
  match object.symbols[relocation.symbolIndex]? with
  | none => state
  | some symbol =>
    let state := { state with
      referenced := Function.update state.referenced (objectIndex, relocation.symbolIndex) true }
    match gcTarget table object objectIndex symbol with
    | none => state
    | some item => { state with worklist := state.worklist.mark item }

/-- The relocations of the section of an item. -/
def relocationsOf (inputs : List LinkedInputObject) (item : GcWorkItem) : List LinkReloc :=
  match inputs[item.objectIndex]? with
  | none => []
  | some input =>
    match input.object.sections[item.sectionIndex]? with
    | none => []
    | some s => s.relocations

/-- The loop over the relocations of a section. -/
def gcScan (inputs : List LinkedInputObject) (table : List GcDefinition) (state : GcState) (item : GcWorkItem) :
    GcState :=
  match inputs[item.objectIndex]? with
  | none => state
  | some input => (relocationsOf inputs item).foldl (gcVisit table input.object item.objectIndex) state

/-- The loop over the worklist, from `processed` on. -/
def gcLoop (inputs : List LinkedInputObject) (table : List GcDefinition) : ℕ → ℕ → GcState → Option GcState
  | fuel, processed, state =>
    match state.worklist.items[processed]? with
    | none => some state
    | some item =>
      match fuel with
      | 0 => none
      | fuel + 1 => gcLoop inputs table fuel (processed + 1) (gcScan inputs table state item)

/-- The sections that are never dropped. -/
def gcRoots (inputs : List LinkedInputObject) : List GcWorkItem :=
  inputs.zipIdx.flatMap fun (input, objectIndex) =>
    input.object.sections.zipIdx.filterMap fun (s, sectionIndex) =>
      if s.kind = .unknown then none
      else if linkSectionIsGcEligible s then none
      else some ⟨objectIndex, sectionIndex⟩

/-- The section that defines the entry point. -/
def gcEntry (table : List GcDefinition) : Option String → List GcWorkItem
  | none => []
  | some name =>
    if name = "" then []
    else
      match gcFindDefinition table name with
      | none => []
      | some entry => [⟨entry.objectIndex, entry.sectionIndex⟩]

/-- `total_sections`. -/
def totalSections (inputs : List LinkedInputObject) : ℕ :=
  (inputs.map fun input => input.object.sections.length).sum

/-- The marks after the loop. -/
def gcMarks (inputs : List LinkedInputObject) (entryName : Option String) : Option GcState :=
  ((gcDefinitions inputs).foldlM gcInsertDefinition []).bind fun table =>
    gcLoop inputs table (totalSections inputs) 0
      { worklist := (gcRoots inputs ++ gcEntry table entryName).foldl Lib.Worklist.mark {} }

/-- `link_resolution_gc_sections`: the objects with their dead sections and referenced symbols. -/
def linkResolutionGcSections (inputs : List LinkedInputObject) (entryName : Option String) :
    Option (List LinkedInputObject) :=
  if totalSections inputs = 0 then some inputs
  else
    (gcMarks inputs entryName).map fun state =>
      inputs.zipIdx.map fun (input, objectIndex) => { input with
        sectionGcDead := input.object.sections.zipIdx.map fun (s, sectionIndex) =>
          !state.worklist.marked ⟨objectIndex, sectionIndex⟩ && linkSectionIsGcEligible s
        symbolGcReferenced := some ((List.range input.object.symbols.length).map fun symbolIndex =>
          state.referenced (objectIndex, symbolIndex)) }

/-!
## Resolving symbols

After the merge every symbol of an object gets its place in a merged section, and the external ones go to one table
of the whole program (`linker/symbol_resolve.c`). A relocation is to the symbol of its own object when that one has a
place, and to the table's symbol of the name otherwise (`linker/relocation.c`). The name index of the table is left
out: a name is looked up in the table itself.
-/

/-- `LinkedObjectSymbol`. -/
structure LinkedObjectSymbol where
  name : Option String
  objectIndex : ℕ
  symbolIndex : ℕ
  isDefined : Bool := false
  isExternal : Bool := false
  isAuxiliary : Bool := false
  sectionIndex : ℤ
  mergedSectionIndex : Option (Fin 7) := none
  mergedOffset : BitVec 64 := 0
  virtualAddress : BitVec 64 := 0
  isWeak : Bool := false
  deriving DecidableEq, Repr

/-- `LinkedSymbol`: it is defined when there is a symbol of an object that defines it. -/
structure LinkedSymbol where
  name : String
  isDefined : Bool := false
  isExternal : Bool := false
  definingObjectIndex : ℕ := 0
  definingSymbolIndex : ℕ := 0
  mergedSectionIndex : Option (Fin 7) := none
  mergedOffset : BitVec 64 := 0
  virtualAddress : BitVec 64 := 0
  isWeak : Bool := false
  deriving DecidableEq, Repr

/-! ## The table of the program -/

/-- `link_resolution_find_symbol`. -/
def linkResolutionFindSymbol (symbols : List LinkedSymbol) (name : String) : Option LinkedSymbol :=
  symbols.find? fun s => s.name = name

/-- The definition of a symbol of the table is that of an object. -/
def LinkedSymbol.define (s : LinkedSymbol) (objectSymbol : LinkedObjectSymbol) : LinkedSymbol :=
  { s with
    isDefined := true
    definingObjectIndex := objectSymbol.objectIndex
    definingSymbolIndex := objectSymbol.symbolIndex
    mergedSectionIndex := objectSymbol.mergedSectionIndex
    mergedOffset := objectSymbol.mergedOffset }

/-- What `link_resolution_record_global_symbol` does to the symbol that it found or added. -/
def LinkedSymbol.record (inputs : List LinkedInputObject) (isRuntimeDefault : Bool)
    (objectSymbol : LinkedObjectSymbol) (s : LinkedSymbol) : Option LinkedSymbol :=
  let s := { s with isExternal := true }
  if !objectSymbol.isDefined then some { s with isWeak := objectSymbol.isWeak }
  else if s.isDefined then
    let holder := (inputs[s.definingObjectIndex]?).elim false (·.isRuntimeDefault)
    if holder && !isRuntimeDefault then some (s.define objectSymbol)
    else if !holder && isRuntimeDefault then some s
    else none
  else some (s.define objectSymbol)

/-- `link_resolution_record_global_symbol`. -/
def linkResolutionRecordGlobalSymbol (inputs : List LinkedInputObject) (isRuntimeDefault : Bool)
    (symbols : List LinkedSymbol) (objectSymbol : LinkedObjectSymbol) (name : String) : Option (List LinkedSymbol) :=
  match linkResolutionFindSymbol symbols name with
  | none => (LinkedSymbol.record inputs isRuntimeDefault objectSymbol { name }).map fun s => symbols ++ [s]
  | some held => (held.record inputs isRuntimeDefault objectSymbol).map fun s =>
      symbols.map fun held => if held.name = name then s else held

/-! ## The symbols of the objects -/

/-- How a symbol of an object is mapped: there is no result for one of a section that is not there. -/
def LinkSymbol.resolve (input : LinkedInputObject) (places : List (Option SectionPlace)) (objectIndex symbolIndex : ℕ)
    (symbol : LinkSymbol) : Option LinkedObjectSymbol :=
  let resolved : LinkedObjectSymbol :=
    { name := symbol.name, objectIndex, symbolIndex, sectionIndex := symbol.sectionIndex, isWeak := symbol.isWeak }
  if symbol.isAuxiliary then some { resolved with isAuxiliary := true }
  else
    let resolved := { resolved with isExternal := symbol.isExternal }
    if 0 ≤ symbol.sectionIndex then
      (input.object.sectionOf symbol).map fun sectionIndex =>
        match places.getD sectionIndex none with
        | none => resolved
        | some place => { resolved with
            isDefined := true
            mergedSectionIndex := some place.mergedIndex
            mergedOffset := place.mergedOffset + symbol.value }
    else some resolved

/-- The symbol goes to the table of the program: it is external, and neither of a dead section nor an undefined one
that no kept section refers to. -/
def LinkSymbol.isRecorded (input : LinkedInputObject) (symbolIndex : ℕ) (symbol : LinkSymbol) : Bool :=
  !symbol.isAuxiliary &&
    !(decide (0 ≤ symbol.sectionIndex) && input.sectionGcDead.getD symbol.sectionIndex.toNat false) &&
    !(decide (symbol.sectionIndex = linkSectionIndexUndefined) &&
      match input.symbolGcReferenced with
      | none => false
      | some referenced => !referenced.getD symbolIndex false) &&
    symbol.isExternal && symbol.name.isSome

/-- The loop over the symbols of one object. -/
def buildObjectSymbols (inputs : List LinkedInputObject) (input : LinkedInputObject)
    (places : List (Option SectionPlace)) (objectIndex : ℕ) :
    List (LinkSymbol × ℕ) → List LinkedSymbol → Option (List LinkedObjectSymbol × List LinkedSymbol)
  | [], symbols => some ([], symbols)
  | (symbol, symbolIndex) :: rest, symbols =>
    (symbol.resolve input places objectIndex symbolIndex).bind fun resolved =>
      (match symbol.name with
        | none => some symbols
        | some name =>
          if symbol.isRecorded input symbolIndex then
            linkResolutionRecordGlobalSymbol inputs input.isRuntimeDefault symbols resolved name
          else some symbols).bind fun symbols =>
        (buildObjectSymbols inputs input places objectIndex rest symbols).map fun (objectSymbols, symbols) =>
          (resolved :: objectSymbols, symbols)

/-- The symbols of each object and those of the program. -/
structure LinkSymbols where
  objects : List (List LinkedObjectSymbol) := []
  symbols : List LinkedSymbol := []
  deriving DecidableEq, Repr

/-- The loop over the objects. -/
def buildSymbols (inputs : List LinkedInputObject) (places : List (List (Option SectionPlace))) :
    List (LinkedInputObject × ℕ) → LinkSymbols → Option LinkSymbols
  | [], built => some built
  | (input, objectIndex) :: rest, built =>
    (buildObjectSymbols inputs input (places.getD objectIndex []) objectIndex input.object.symbols.zipIdx
      built.symbols).bind fun (objectSymbols, symbols) =>
        buildSymbols inputs places rest { objects := built.objects ++ [objectSymbols], symbols }

/-- `link_resolution_build_symbols`. -/
def linkResolutionBuildSymbols (inputs : List LinkedInputObject) (resolution : LinkResolution) : Option LinkSymbols :=
  buildSymbols inputs resolution.places inputs.zipIdx {}

/-! ## Addresses -/

/-- `link_resolution_assign_virtual_addresses`. -/
def LinkSymbols.assignVirtualAddresses (built : LinkSymbols) (addresses : Fin 7 → BitVec 64) : LinkSymbols where
  objects := built.objects.map fun objectSymbols => objectSymbols.map fun s =>
    match s.isDefined, s.mergedSectionIndex with
    | true, some k => { s with virtualAddress := addresses k + s.mergedOffset }
    | _, _ => s
  symbols := built.symbols.map fun s =>
    match s.isDefined, s.mergedSectionIndex with
    | true, some k => { s with virtualAddress := addresses k + s.mergedOffset }
    | _, _ => s

/-! ## The target of a relocation -/

/-- `RelocationTarget`. -/
structure RelocationTarget where
  name : String
  mergedSectionIndex : Fin 7
  mergedOffset : BitVec 64
  virtualAddress : BitVec 64
  deriving DecidableEq, Repr

/-- `relocation_resolve_target`, for a relocation of the object `objectIndex`. -/
def relocationResolveTarget (built : LinkSymbols) (objectIndex symbolIndex : ℕ) : Option RelocationTarget :=
  ((built.objects.getD objectIndex [])[symbolIndex]?).bind fun objectSymbol =>
    let name := objectSymbol.name.getD "<unnamed>"
    if objectSymbol.isAuxiliary then none
    else
      match objectSymbol.isDefined, objectSymbol.mergedSectionIndex with
      | true, some k => some ⟨name, k, objectSymbol.mergedOffset, objectSymbol.virtualAddress⟩
      | _, _ =>
        (objectSymbol.name.bind (linkResolutionFindSymbol built.symbols)).bind fun s =>
          match s.isDefined, s.mergedSectionIndex with
          | true, some k => some ⟨name, k, s.mergedOffset, s.virtualAddress⟩
          | _, _ => none

end Mettle.Linker

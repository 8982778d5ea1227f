import Mettle.Linker.GcResolve

/-!
# What the collection keeps and what relocations are resolved to

The collection and the resolution after it agree: a dead section is one that nothing needed leads to, and no
relocation is resolved to one. The collection also goes through sections of unknown kind, which the resolution does
not place, so it can keep more than the resolved relocations reach.
-/

open Option

namespace Mettle.Linker

variable {inputs inputs' : List LinkedInputObject} {input : LinkedInputObject} {name : String}

/-! ## After addresses are assigned -/

/-- Assigning addresses keeps which symbol is found. -/
theorem find_assign {l : List LinkedSymbol} {f : LinkedSymbol → LinkedSymbol} (hf : ∀ s, (f s).name = s.name) :
    linkResolutionFindSymbol (l.map f) name = (linkResolutionFindSymbol l name).map f := by
  unfold linkResolutionFindSymbol
  rw [List.find?_map]
  congr 2
  funext s
  exact congrArg (fun n => decide (n = name)) (hf s)

section

variable (built : LinkSymbols) (addresses : Fin 7 → BitVec 64)

/-- The symbols of the objects after the addresses. -/
theorem getElem?_assign (o i : ℕ) :
    ((built.assignVirtualAddresses addresses).objects.getD o [])[i]? =
      ((built.objects.getD o [])[i]?).map fun s =>
        match s.isDefined, s.mergedSectionIndex with
        | true, some k => { s with virtualAddress := addresses k + s.mergedOffset }
        | _, _ => s := by
  unfold LinkSymbols.assignVirtualAddresses
  rw [List.getD_eq_getElem?_getD, List.getD_eq_getElem?_getD, List.getElem?_map]
  cases built.objects[o]? with
  | none => rfl
  | some objectSymbols => exact List.getElem?_map

/-- The table's symbol is found in the same cases. -/
theorem findTarget_assign (name : Option String) :
    ((name.bind (linkResolutionFindSymbol (built.assignVirtualAddresses addresses).symbols)).bind
      fun s : LinkedSymbol => match s.isDefined, s.mergedSectionIndex with
        | true, some k => some (⟨name.getD "<unnamed>", k, s.mergedOffset, s.virtualAddress⟩ : RelocationTarget)
        | _, _ => none) =
      (((name.bind (linkResolutionFindSymbol built.symbols)).bind
        fun s : LinkedSymbol => match s.isDefined, s.mergedSectionIndex with
          | true, some k => some (⟨name.getD "<unnamed>", k, s.mergedOffset, s.virtualAddress⟩ : RelocationTarget)
          | _, _ => none)).map fun target : RelocationTarget =>
            { target with virtualAddress := addresses target.mergedSectionIndex + target.mergedOffset } := by
  cases name with
  | none => rfl
  | some name =>
    rw [bind_some, bind_some]
    unfold LinkSymbols.assignVirtualAddresses
    rw [find_assign (fun s => by split <;> rfl)]
    cases linkResolutionFindSymbol built.symbols name with
    | none => rfl
    | some s =>
      obtain ⟨_, isDefined, _, _, _, merged, _, _, _⟩ := s
      cases isDefined <;> cases merged <;> rfl

/-- Assigning addresses changes only the address of a target. -/
theorem relocationResolveTarget_assign (o i : ℕ) :
    relocationResolveTarget (built.assignVirtualAddresses addresses) o i =
      (relocationResolveTarget built o i).map fun target =>
        { target with virtualAddress := addresses target.mergedSectionIndex + target.mergedOffset } := by
  unfold relocationResolveTarget
  rw [getElem?_assign]
  cases (built.objects.getD o [])[i]? with
  | none => rfl
  | some d =>
    obtain ⟨name, o', i', isDefined, isExternal, isAuxiliary, sectionIndex, merged, offset, address, isWeak⟩ := d
    cases isAuxiliary with
    | true => cases isDefined <;> cases merged <;> rfl
    | false =>
      cases isDefined with
      | false => exact findTarget_assign built addresses name
      | true =>
        cases merged with
        | none => exact findTarget_assign built addresses name
        | some k => rfl

end

/-! ## The objects stay the same -/

/-- The objects and which of them are runtime defaults are the same. -/
def SameObjects (inputs inputs' : List LinkedInputObject) : Prop :=
  ∀ k : ℕ, (inputs'[k]?).map LinkedInputObject.object = (inputs[k]?).map LinkedInputObject.object ∧
    (inputs'[k]?).map LinkedInputObject.isRuntimeDefault = (inputs[k]?).map LinkedInputObject.isRuntimeDefault

section

variable (h : SameObjects inputs inputs')
include h

/-- The same object is at the same place. -/
theorem SameObjects.get {k : ℕ} (hinput : inputs[k]? = some input) :
    ∃ input', inputs'[k]? = some input' ∧ input'.object = input.object ∧
      input'.isRuntimeDefault = input.isRuntimeDefault := by
  obtain ⟨hobject, hdefault⟩ := h k
  rw [hinput] at hobject hdefault
  obtain ⟨input', hinput', hobject'⟩ := map_eq_some_iff.mp hobject
  rw [hinput'] at hdefault
  exact ⟨input', hinput', hobject', some.inj hdefault⟩

theorem SameObjects.symm : SameObjects inputs' inputs :=
  fun k => ⟨(h k).1.symm, (h k).2.symm⟩

/-- The definitions are the same. -/
theorem SameObjects.definition {definition : GcDefinition} (hmem : definition ∈ gcDefinitions inputs) :
    definition ∈ gcDefinitions inputs' := by
  obtain ⟨input, j, symbol, hinput, hsymbol, haux, hexternal, hname, hsection, hdefault⟩ := mem_gcDefinitions.mp hmem
  obtain ⟨input', hinput', hobject, hsame⟩ := h.get hinput
  rw [← hobject] at hsymbol hsection
  exact mem_gcDefinitions.mpr ⟨input', j, symbol, hinput', hsymbol, haux, hexternal, hname, hsection,
    hsame.trans hdefault⟩

/-- Symbols are defined in the same sections. -/
theorem SameObjects.definedIn {o i : ℕ} {item : GcWorkItem} (hdefined : DefinedIn inputs o i item) :
    DefinedIn inputs' o i item := by
  cases hdefined with
  | own hinput hsymbol haux hsection =>
    obtain ⟨input', hinput', hobject, -⟩ := h.get hinput
    rw [← hobject] at hsymbol hsection
    exact DefinedIn.own hinput' hsymbol haux hsection
  | external hinput hsymbol haux hundefined hname hprecedes =>
    obtain ⟨input', hinput', hobject, -⟩ := h.get hinput
    rw [← hobject] at hsymbol
    refine DefinedIn.external hinput' hsymbol haux hundefined hname ⟨h.definition hprecedes.1, ?_⟩
    exact fun hdefault other hother => hprecedes.2 hdefault other (h.symm.definition hother)

end

/-! ## The collection and the resolution after it -/

/-- The target lies at a symbol of the section, where the merge put it. -/
def RelocationTarget.IsIn (target : RelocationTarget) (inputs : List LinkedInputObject) (resolution : LinkResolution)
    (item : GcWorkItem) : Prop :=
  ∃ (input : LinkedInputObject) (j : ℕ) (symbol : LinkSymbol) (place : SectionPlace),
    inputs[item.objectIndex]? = some input ∧ input.object.symbols[j]? = some symbol ∧
    input.object.sectionOf symbol = some item.sectionIndex ∧ resolution.placeOf item = some place ∧
    target.LiesIn place symbol.value

/-- A section is dead exactly when it may be dropped and is not needed; the worklist never holds more than all
sections; a relocation of a needed section to a section of known kind is resolved to that section; and whatever is
resolved lies in a section that is not dead. -/
theorem linkResolutionGcSections_exact (inputs : List LinkedInputObject) (entryName : Option String)
    (inputs' : List LinkedInputObject) (h : linkResolutionGcSections inputs entryName = some inputs') :
    (∀ (item : GcWorkItem) (input : LinkedInputObject) (s : LinkSection), inputs[item.objectIndex]? = some input →
      input.object.sections[item.sectionIndex]? = some s →
      (isGcDead inputs' item = true ↔ linkSectionIsGcEligible s = true ∧ ¬ Needed inputs entryName item)) ∧
    (∀ state, gcMarks inputs entryName = some state → state.worklist.items.length ≤ totalSections inputs) ∧
    ∀ (fallbackAlignment : BitVec 64) (resolution : LinkResolution) (built : LinkSymbols)
      (addresses : Fin 7 → BitVec 64), linkResolutionMergeSections inputs' fallbackAlignment = some resolution →
      linkResolutionBuildSymbols inputs' resolution = some built →
      (∀ (item item' : GcWorkItem) (relocation : LinkReloc) (input : LinkedInputObject) (s : LinkSection),
        Needed inputs entryName item → relocation ∈ relocationsOf inputs item →
        DefinedIn inputs item.objectIndex relocation.symbolIndex item' → inputs[item'.objectIndex]? = some input →
        input.object.sections[item'.sectionIndex]? = some s → s.kind ≠ .unknown →
        ∃ target, relocationResolveTarget (built.assignVirtualAddresses addresses) item.objectIndex
          relocation.symbolIndex = some target ∧ target.IsIn inputs' resolution item') ∧
      ∀ (o i : ℕ) (target : RelocationTarget),
        relocationResolveTarget (built.assignVirtualAddresses addresses) o i = some target →
        ∃ item, target.IsIn inputs' resolution item ∧ isGcDead inputs' item = false := by
  obtain ⟨hsame, hdead⟩ := linkResolutionGcSections_dead h
  refine ⟨hdead, fun state hstate => (gcMarks_spec hstate).2, fun fallbackAlignment resolution built addresses hmerge
    hbuild => ?_⟩
  have hbuilt := built_of_linkResolutionBuildSymbols hbuild
  constructor
  · intro item item' relocation input s hneeded hrelocation hdefined hinput hs hkind
    obtain ⟨input', hinput', hobject, -⟩ := SameObjects.get hsame hinput
    -- the section is needed as well, so it was not dropped and has a place
    have hlive : isGcDead inputs' item' = false := by
      rw [← Bool.not_eq_true, hdead item' input s hinput hs]
      exact fun hnot => hnot.2 (Needed.relocation hneeded hrelocation hdefined)
    have hplaced := (placeOf_isSome hmerge hinput' (hobject ▸ hs)).mpr ⟨hkind, hlive⟩
    obtain ⟨place, hplace⟩ := Option.isSome_iff_exists.mp hplaced
    obtain ⟨input₁, j, symbol, target, hinput₁, hsymbol, hsection, htarget, hlies⟩ :=
      relocationResolveTarget_definedIn hmerge hbuilt (SameObjects.definedIn hsame hdefined) hplace
    refine ⟨{ target with virtualAddress := addresses target.mergedSectionIndex + target.mergedOffset }, ?_,
      input₁, j, symbol, place, hinput₁, hsymbol, hsection, hplace, hlies⟩
    rw [relocationResolveTarget_assign, htarget]
    rfl
  · intro o i target htarget
    rw [relocationResolveTarget_assign] at htarget
    obtain ⟨target₀, htarget₀, rfl⟩ := Option.map_eq_some_iff.mp htarget
    obtain ⟨item, input, j, symbol, place, hinput, hsymbol, hsection, hplace, hlies⟩ :=
      relocationResolveTarget_kept hbuilt htarget₀
    refine ⟨item, ⟨input, j, symbol, place, hinput, hsymbol, hsection, hplace, hlies⟩, ?_⟩
    have hs := List.getElem?_eq_getElem (sectionOf_lt hsection).1
    exact ((placeOf_isSome hmerge hinput hs).mp (by rw [hplace]; rfl)).2

/-! ## Sections of unknown kind -/

/-- An object whose code refers to a note, and the note to a function. -/
def noteObject : LinkedInputObject where
  object :=
    { sections :=
        [{ name := ".text", kind := .text, virtualSize := 0, rawData := [0, 0, 0, 0], alignment := 16,
           relocations := [{ symbolIndex := 0 }] },
         { name := ".note", kind := .unknown, virtualSize := 0, rawData := [0, 0, 0, 0], alignment := 16,
           relocations := [{ symbolIndex := 1 }] },
         { name := ".text.f", kind := .text, virtualSize := 0, rawData := [0, 0, 0, 0], alignment := 16 },
         { name := ".text.g", kind := .text, virtualSize := 0, rawData := [0, 0, 0, 0], alignment := 16 }]
      symbols := [{ name := some "note", sectionIndex := 1 }, { name := some "f", sectionIndex := 2 }] }

/-- What the collection leaves of it: the function is kept. -/
def noteObjectKept : LinkedInputObject :=
  { noteObject with
    sectionGcDead := [false, false, false, true]
    symbolGcReferenced := some [true, true] }

theorem noteObject_gc : linkResolutionGcSections [noteObject] none = some [noteObjectKept] := by
  decide

theorem linkResolutionGcSections_exact_note : isGcDead [noteObjectKept] ⟨0, 3⟩ = true ↔
    linkSectionIsGcEligible noteObject.object.sections[3] = true ∧ ¬ Needed [noteObject] none ⟨0, 3⟩ :=
  (linkResolutionGcSections_exact [noteObject] none [noteObjectKept] noteObject_gc).1 ⟨0, 3⟩ noteObject _ rfl rfl

/-- The section of the definition that a relocation is resolved to. -/
def pickedSection (built : LinkSymbols) (objectIndex symbolIndex : ℕ) : Option GcWorkItem :=
  ((built.objects.getD objectIndex [])[symbolIndex]?).bind fun d =>
    if d.isAuxiliary then none
    else if d.isDefined then some ⟨objectIndex, d.sectionIndex.toNat⟩
    else
      (d.name.bind (linkResolutionFindSymbol built.symbols)).bind fun s =>
        if s.isDefined then
          ((built.objects.getD s.definingObjectIndex [])[s.definingSymbolIndex]?).map fun d' =>
            ⟨s.definingObjectIndex, d'.sectionIndex.toNat⟩
        else none

/-- The sections that are reached over the resolved relocations alone. -/
inductive Picked (inputs : List LinkedInputObject) (built : LinkSymbols) : GcWorkItem → Prop
  | root {item : GcWorkItem} : item ∈ gcRoots inputs → Picked inputs built item
  | relocation {item item' : GcWorkItem} {relocation : LinkReloc} : Picked inputs built item →
      relocation ∈ relocationsOf inputs item →
      pickedSection built item.objectIndex relocation.symbolIndex = some item' → Picked inputs built item'

/-- The symbols of the object after the merge: the note is defined nowhere. -/
def noteSymbols : LinkSymbols where
  objects := [[
    { name := some "note", objectIndex := 0, symbolIndex := 0, sectionIndex := 1 },
    { name := some "f", objectIndex := 0, symbolIndex := 1, isDefined := true, sectionIndex := 2,
      mergedSectionIndex := linkSectionIndexFromKind .text, mergedOffset := 16 }]]

/-- A section is kept that the resolved relocations do not reach. -/
theorem linkResolutionGcSections_keeps_more : linkResolutionGcSections [noteObject] none = some [noteObjectKept] ∧
    ((linkResolutionMergeSections [noteObjectKept] 16).bind fun resolution =>
      linkResolutionBuildSymbols [noteObjectKept] resolution) = some noteSymbols ∧
    linkSectionIsGcEligible noteObject.object.sections[2] = true ∧ isGcDead [noteObjectKept] ⟨0, 2⟩ = false ∧
    ¬ Picked [noteObject] noteSymbols ⟨0, 2⟩ := by
  refine ⟨noteObject_gc, by decide, by decide, by decide, fun hpicked => ?_⟩
  have honly : ∀ item, Picked [noteObject] noteSymbols item → item = ⟨0, 0⟩ := by
    intro item hitem
    induction hitem with
    | root hroot =>
      rw [show gcRoots [noteObject] = [⟨0, 0⟩] by decide] at hroot
      exact List.mem_singleton.mp hroot
    | relocation _ hrelocation hsection ih =>
      subst ih
      rw [show relocationsOf [noteObject] ⟨0, 0⟩ = [{ symbolIndex := 0 }] by decide] at hrelocation
      rw [List.mem_singleton.mp hrelocation] at hsection
      rw [show pickedSection noteSymbols 0 0 = none by decide] at hsection
      cases hsection
  exact absurd (honly _ hpicked) (by decide)

end Mettle.Linker

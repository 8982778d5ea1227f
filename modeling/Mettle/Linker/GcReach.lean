import Mettle.Lib.Table
import Mettle.Linker.Gc

/-!
# Dead sections are the unreachable ones

The table of definitions holds for each name the definition that takes precedence. So the marked sections are those
that the kept ones and the entry point lead to, over relocations to the section that defines the symbol.
-/

open List Option

namespace Mettle.Linker

variable {inputs : List LinkedInputObject} {table table' : List GcDefinition} {definition held : GcDefinition}
  {definitions : List GcDefinition} {name : String} {entryName : Option String} {item : GcWorkItem}

open Lib (lookup replace Holds)

/-! ## The table of definitions -/

/-- The table holds for each name the definition that takes precedence. -/
def TableOk (definitions table : List GcDefinition) : Prop :=
  ∀ name, Holds GcDefinition.name GcDefinition.isRuntimeDefault definitions name (gcFindDefinition table name)

/-- Inserting a definition keeps the table in order. -/
theorem TableOk.insert (hok : TableOk definitions table)
    (h : gcInsertDefinition table definition = some table') : TableOk (definitions ++ [definition]) table' := by
  intro name
  have hname := hok name
  have hheld := hok definition.name
  unfold gcInsertDefinition at h
  -- the entry of this name may be replaced, that of any other name stands
  by_cases hne : name = definition.name
  · subst hne
    cases hfind : gcFindDefinition table definition.name with
    | none =>
      rw [hfind] at h hheld
      cases h
      have hnew : gcFindDefinition (table ++ [definition]) definition.name = some definition := by
        refine (Lib.lookup_append GcDefinition.name).trans ?_
        rw [show lookup GcDefinition.name table definition.name = none from hfind, if_pos rfl]
        rfl
      rw [hnew]
      exact hheld.first
    | some held =>
      rw [hfind] at h hheld
      dsimp only at h
      split at h
      · cases h
      · rename_i hdiffer
        split at h
        · rename_i hoverride
          obtain ⟨hdefault, hordinary⟩ := Bool.and_eq_true_iff.mp hoverride
          cases h
          have hnew : gcFindDefinition (replace GcDefinition.name table definition) definition.name =
              some definition := Lib.lookup_replace_self hfind
          refine hnew ▸ hheld.override hdefault ?_
          exact Bool.not_eq_true' _ ▸ hordinary
        · rename_i hkeep
          cases h
          rw [hfind]
          cases hdefault : held.isRuntimeDefault <;> cases hdefault' : definition.isRuntimeDefault
          · exact absurd (hdefault.trans hdefault'.symm) hdiffer
          · exact hheld.keep hdefault hdefault'
          · exact absurd (by rw [hdefault, hdefault']; rfl) hkeep
          · exact absurd (hdefault.trans hdefault'.symm) hdiffer
  · have hsame : gcFindDefinition table' name = gcFindDefinition table name := by
      split at h
      · cases h
        refine (Lib.lookup_append GcDefinition.name).trans ?_
        rw [if_neg fun heq => hne heq.symm, or_none]
        rfl
      · split at h
        · cases h
        · split at h
          · cases h
            exact Lib.lookup_replace_ne hne
          · rw [some.inj h]
    rw [hsame]
    exact hname.other fun heq => hne heq.symm

/-- The table of the definitions. -/
theorem TableOk.foldlM {more : List GcDefinition} (hok : TableOk definitions table)
    (h : more.foldlM gcInsertDefinition table = some table') : TableOk (definitions ++ more) table' := by
  induction more generalizing definitions table with
  | nil =>
    cases h
    rwa [append_nil]
  | cons d more ih =>
    obtain ⟨table₁, hinsert, hrest⟩ := bind_eq_some_iff.mp h
    have hmore := ih (hok.insert hinsert) hrest
    rwa [append_assoc] at hmore

/-- The table of all definitions is in order. -/
theorem tableOk_gcDefinitions (h : (gcDefinitions inputs).foldlM gcInsertDefinition [] = some table) :
    TableOk (gcDefinitions inputs) table :=
  TableOk.foldlM (show TableOk [] [] from fun _ => Holds.nil) h

/-- Of the external definitions of its name this one takes precedence: it is ordinary, or all of them are runtime
defaults. -/
def TakesPrecedence (inputs : List LinkedInputObject) (definition : GcDefinition) : Prop :=
  definition ∈ gcDefinitions inputs ∧ (definition.isRuntimeDefault = true →
    ∀ other ∈ gcDefinitions inputs, other.name = definition.name → other.isRuntimeDefault = true)

/-- What is found is the definition that takes precedence. -/
theorem gcFindDefinition_iff (hok : TableOk (gcDefinitions inputs) table) :
    gcFindDefinition table name = some definition ↔ definition.name = name ∧ TakesPrecedence inputs definition := by
  have hname := hok name
  constructor
  · intro hfind
    obtain ⟨hmem, hkey⟩ := hname.mem definition hfind
    refine ⟨hkey, hmem, fun hdefault other hother hsame => ?_⟩
    by_contra hordinary
    rw [Bool.not_eq_true] at hordinary
    rw [hname.ordinary definition hfind other hother (hsame.trans hkey) hordinary, hdefault] at hordinary
    cases hordinary
  · rintro ⟨hkey, hmem, hprecedes⟩
    cases hfind : gcFindDefinition table name with
    | none => exact absurd hkey (hname.absent hfind definition hmem)
    | some held =>
      obtain ⟨hheld, hheldkey⟩ := hname.mem held hfind
      cases hdefault : definition.isRuntimeDefault with
      | false => rw [hname.ordinary held hfind definition hmem hkey hdefault]
      | true =>
        have hheldDefault := hprecedes hdefault held hheld (hheldkey.trans hkey.symm)
        rw [hname.default held hfind hheldDefault definition hmem hkey]

/-! ## Sections that are needed -/

/-- The section that defines the symbol of an object: one of the object itself or, for an undefined symbol, that of
the definition that takes precedence. -/
inductive DefinedIn (inputs : List LinkedInputObject) (objectIndex symbolIndex : ℕ) : GcWorkItem → Prop
  | own {input : LinkedInputObject} {symbol : LinkSymbol} {sectionIndex : ℕ} : inputs[objectIndex]? = some input →
      input.object.symbols[symbolIndex]? = some symbol → symbol.isAuxiliary = false →
      input.object.sectionOf symbol = some sectionIndex →
      DefinedIn inputs objectIndex symbolIndex ⟨objectIndex, sectionIndex⟩
  | external {input : LinkedInputObject} {symbol : LinkSymbol} {definition : GcDefinition} :
      inputs[objectIndex]? = some input → input.object.symbols[symbolIndex]? = some symbol →
      symbol.isAuxiliary = false → symbol.sectionIndex = linkSectionIndexUndefined →
      symbol.name = some definition.name → TakesPrecedence inputs definition →
      DefinedIn inputs objectIndex symbolIndex ⟨definition.objectIndex, definition.sectionIndex⟩

/-- The sections that are reached: the ones that are never dropped, the one of the entry point, and the ones that a
relocation of a reached section leads to. -/
inductive Needed (inputs : List LinkedInputObject) (entryName : Option String) : GcWorkItem → Prop
  | root {item : GcWorkItem} : item ∈ gcRoots inputs → Needed inputs entryName item
  | entry {definition : GcDefinition} : entryName = some definition.name → definition.name ≠ "" →
      TakesPrecedence inputs definition → Needed inputs entryName ⟨definition.objectIndex, definition.sectionIndex⟩
  | relocation {item item' : GcWorkItem} {relocation : LinkReloc} : Needed inputs entryName item →
      relocation ∈ relocationsOf inputs item → DefinedIn inputs item.objectIndex relocation.symbolIndex item' →
      Needed inputs entryName item'

/-- Where the relocations of the section of an item lead to. -/
def gcNext (inputs : List LinkedInputObject) (table : List GcDefinition) (item : GcWorkItem) : List GcWorkItem :=
  match inputs[item.objectIndex]? with
  | none => []
  | some input => (relocationsOf inputs item).filterMap fun relocation =>
      (input.object.symbols[relocation.symbolIndex]?).bind (gcTarget table input.object item.objectIndex)

variable {object : LinkObject} {symbol : LinkSymbol} {objectIndex symbolIndex : ℕ}

/-- An undefined symbol has no section. -/
theorem sectionOf_undefined (h : symbol.sectionIndex = linkSectionIndexUndefined) : object.sectionOf symbol = none := by
  unfold LinkObject.sectionOf
  rw [h]
  exact if_neg fun hle => absurd hle.1 (by decide)

/-- The target of a relocation is where its symbol is defined. -/
theorem gcTarget_iff (hok : TableOk (gcDefinitions inputs) table) {input : LinkedInputObject}
    (hinput : inputs[objectIndex]? = some input) (hsymbol : input.object.symbols[symbolIndex]? = some symbol) :
    gcTarget table input.object objectIndex symbol = some item ↔ DefinedIn inputs objectIndex symbolIndex item := by
  unfold gcTarget
  constructor
  · intro h
    obtain ⟨haux, h⟩ := ite_none_left_eq_some.mp h
    rw [Bool.not_eq_true] at haux
    split at h
    · rename_i sectionIndex hsection
      cases h
      exact DefinedIn.own hinput hsymbol haux hsection
    · obtain ⟨hundefined, h⟩ := ite_none_right_eq_some.mp h
      obtain ⟨name, hname, h⟩ := bind_eq_some_iff.mp h
      obtain ⟨definition, hfind, rfl⟩ := map_eq_some_iff.mp h
      obtain ⟨hkey, hprecedes⟩ := (gcFindDefinition_iff hok).mp hfind
      exact DefinedIn.external hinput hsymbol haux hundefined (hkey ▸ hname) hprecedes
  · intro h
    cases h with
    | own hinput' hsymbol' haux hsection =>
      obtain rfl := some.inj (hinput.symm.trans hinput')
      obtain rfl := some.inj (hsymbol.symm.trans hsymbol')
      rw [haux, if_neg Bool.false_ne_true, hsection]
    | external hinput' hsymbol' haux hundefined hname hprecedes =>
      obtain rfl := some.inj (hinput.symm.trans hinput')
      obtain rfl := some.inj (hsymbol.symm.trans hsymbol')
      rw [haux, if_neg Bool.false_ne_true, sectionOf_undefined hundefined]
      rw [if_pos hundefined, hname, bind_some, (gcFindDefinition_iff hok).mpr ⟨rfl, hprecedes⟩]
      rfl

/-- What a section refers to are the targets of its relocations. -/
theorem mem_gcNext (hok : TableOk (gcDefinitions inputs) table) {item item' : GcWorkItem} :
    item' ∈ gcNext inputs table item ↔
      ∃ relocation ∈ relocationsOf inputs item, DefinedIn inputs item.objectIndex relocation.symbolIndex item' := by
  unfold gcNext
  cases hinput : inputs[item.objectIndex]? with
  | none =>
    refine ⟨fun h => absurd h not_mem_nil, fun ⟨_, _, h⟩ => ?_⟩
    cases h with
    | own hinput' => exact absurd (hinput.symm.trans hinput') nofun
    | external hinput' => exact absurd (hinput.symm.trans hinput') nofun
  | some input =>
    rw [mem_filterMap]
    constructor
    · rintro ⟨relocation, hmem, h⟩
      obtain ⟨symbol, hsymbol, htarget⟩ := bind_eq_some_iff.mp h
      exact ⟨relocation, hmem, (gcTarget_iff hok hinput hsymbol).mp htarget⟩
    · rintro ⟨relocation, hmem, h⟩
      have hsome : ∃ symbol, input.object.symbols[relocation.symbolIndex]? = some symbol := by
        cases h with
        | own hinput' hsymbol => exact ⟨_, some.inj (hinput.symm.trans hinput') ▸ hsymbol⟩
        | external hinput' hsymbol => exact ⟨_, some.inj (hinput.symm.trans hinput') ▸ hsymbol⟩
      obtain ⟨symbol, hsymbol⟩ := hsome
      refine ⟨relocation, hmem, ?_⟩
      rw [hsymbol, bind_some]
      exact (gcTarget_iff hok hinput hsymbol).mpr h

/-- The marks of a scan are those of the sections that the relocations lead to. -/
theorem gcScan_worklist (state : GcState) (item : GcWorkItem) :
    (gcScan inputs table state item).worklist = (gcNext inputs table item).foldl Lib.Worklist.mark state.worklist := by
  unfold gcScan gcNext
  cases inputs[item.objectIndex]? with
  | none => rfl
  | some input =>
    dsimp only
    induction relocationsOf inputs item generalizing state with
    | nil => rfl
    | cons relocation relocations ih =>
      rw [foldl_cons, ih, filterMap_cons]
      unfold gcVisit
      cases input.object.symbols[relocation.symbolIndex]? with
      | none => rfl
      | some symbol =>
        dsimp only [bind_some]
        cases gcTarget table input.object item.objectIndex symbol with
        | none => rfl
        | some target => rfl

/-- The loop of the collector is the one of a worklist. -/
theorem gcLoop_worklist (inputs : List LinkedInputObject) (table : List GcDefinition) (fuel processed : ℕ) (state : GcState) :
    (gcLoop inputs table fuel processed state).map GcState.worklist =
      Lib.Worklist.run (gcNext inputs table) fuel processed state.worklist := by
  induction fuel generalizing processed state with
  | zero =>
    unfold gcLoop Lib.Worklist.run
    cases state.worklist.items[processed]? <;> rfl
  | succ fuel ih =>
    unfold gcLoop Lib.Worklist.run
    cases state.worklist.items[processed]? with
    | none => rfl
    | some item =>
      rw [ih, gcScan_worklist]

/-! ## The sections there are -/

/-- All sections. -/
def gcItems (inputs : List LinkedInputObject) : List GcWorkItem :=
  inputs.zipIdx.flatMap fun (input, objectIndex) =>
    (List.range input.object.sections.length).map fun sectionIndex => ⟨objectIndex, sectionIndex⟩

/-- The sections of all the objects. -/
theorem mem_gcItems : item ∈ gcItems inputs ↔
    ∃ input, inputs[item.objectIndex]? = some input ∧ item.sectionIndex < input.object.sections.length := by
  unfold gcItems
  rw [mem_flatMap]
  constructor
  · rintro ⟨⟨input, objectIndex⟩, hmem, hitem⟩
    obtain ⟨sectionIndex, hlt, rfl⟩ := List.mem_map.mp hitem
    exact ⟨input, mem_zipIdx_iff_getElem?.mp hmem, mem_range.mp hlt⟩
  · rintro ⟨input, hinput, hlt⟩
    exact ⟨⟨input, item.objectIndex⟩, mem_zipIdx_iff_getElem?.mpr hinput,
      List.mem_map.mpr ⟨item.sectionIndex, mem_range.mpr hlt, rfl⟩⟩

theorem length_gcItems : (gcItems inputs).length = totalSections inputs := by
  unfold gcItems totalSections
  rw [length_flatMap]
  congr 1
  conv_rhs => rw [← zipIdx_map_fst 0 inputs, List.map_map]
  refine map_congr_left fun x _ => ?_
  rw [length_map, length_range]
  rfl

/-- The section of a symbol is one of its object. -/
theorem sectionOf_lt {sectionIndex : ℕ} (h : object.sectionOf symbol = some sectionIndex) :
    sectionIndex < object.sections.length ∧ symbol.sectionIndex = sectionIndex := by
  obtain ⟨⟨hpos, hlt⟩, h⟩ := ite_none_right_eq_some.mp h
  rw [← some.inj h]
  exact ⟨hlt, (Int.toNat_of_nonneg hpos).symm⟩

/-- A definition is a symbol of an object that one of the object's sections defines. -/
theorem mem_gcDefinitions : definition ∈ gcDefinitions inputs ↔
    ∃ (input : LinkedInputObject) (symbolIndex : ℕ) (symbol : LinkSymbol), inputs[definition.objectIndex]? = some input ∧
      input.object.symbols[symbolIndex]? = some symbol ∧ symbol.isAuxiliary = false ∧ symbol.isExternal = true ∧
      symbol.name = some definition.name ∧ input.object.sectionOf symbol = some definition.sectionIndex ∧
      input.isRuntimeDefault = definition.isRuntimeDefault := by
  unfold gcDefinitions
  rw [mem_flatMap]
  constructor
  · rintro ⟨⟨input, objectIndex⟩, hmem, hdefinition⟩
    obtain ⟨symbol, hsymbol, h⟩ := mem_filterMap.mp hdefinition
    obtain ⟨symbolIndex, hindex⟩ := mem_iff_getElem?.mp hsymbol
    obtain ⟨hcond, h⟩ := ite_none_left_eq_some.mp h
    obtain ⟨name, hname, h⟩ := bind_eq_some_iff.mp h
    obtain ⟨sectionIndex, hsection, rfl⟩ := map_eq_some_iff.mp h
    rw [Bool.or_eq_true, not_or, Bool.not_eq_true, Bool.not_eq_true', Bool.not_eq_false] at hcond
    exact ⟨input, symbolIndex, symbol, mem_zipIdx_iff_getElem?.mp hmem, hindex, hcond.1, hcond.2, hname, hsection,
      rfl⟩
  · rintro ⟨input, symbolIndex, symbol, hinput, hsymbol, haux, hexternal, hname, hsection, hdefault⟩
    refine ⟨⟨input, definition.objectIndex⟩, mem_zipIdx_iff_getElem?.mpr hinput,
      mem_filterMap.mpr ⟨symbol, mem_of_getElem? hsymbol, ?_⟩⟩
    unfold gcDefinition
    rw [haux, hexternal, if_neg (by decide), hname, bind_some, hsection, map_some, hdefault]

/-- A definition is in one of them. -/
theorem TakesPrecedence.mem_gcItems (h : TakesPrecedence inputs definition) :
    (⟨definition.objectIndex, definition.sectionIndex⟩ : GcWorkItem) ∈ gcItems inputs := by
  obtain ⟨input, -, symbol, hinput, -, -, -, -, hsection, -⟩ := mem_gcDefinitions.mp h.1
  exact Linker.mem_gcItems.mpr ⟨input, hinput, (sectionOf_lt hsection).1⟩

/-- So is what a symbol refers to. -/
theorem DefinedIn.mem_gcItems (h : DefinedIn inputs objectIndex symbolIndex item) : item ∈ gcItems inputs := by
  cases h with
  | own hinput _ _ hsection => exact Linker.mem_gcItems.mpr ⟨_, hinput, (sectionOf_lt hsection).1⟩
  | external _ _ _ _ _ hprecedes => exact hprecedes.mem_gcItems

/-- The roots are the sections that may not be collected. -/
theorem mem_gcRoots : item ∈ gcRoots inputs ↔ ∃ input s, inputs[item.objectIndex]? = some input ∧
    input.object.sections[item.sectionIndex]? = some s ∧ s.kind ≠ .unknown ∧ linkSectionIsGcEligible s = false := by
  unfold gcRoots
  rw [mem_flatMap]
  constructor
  · rintro ⟨⟨input, objectIndex⟩, hmem, hitem⟩
    obtain ⟨⟨s, sectionIndex⟩, hs, h⟩ := mem_filterMap.mp hitem
    obtain ⟨hkind, h⟩ := ite_none_left_eq_some.mp h
    obtain ⟨heligible, h⟩ := ite_none_left_eq_some.mp h
    cases h
    exact ⟨input, s, mem_zipIdx_iff_getElem?.mp hmem, mem_zipIdx_iff_getElem?.mp hs, hkind,
      Bool.not_eq_true _ ▸ heligible⟩
  · rintro ⟨input, s, hinput, hs, hkind, heligible⟩
    refine ⟨⟨input, item.objectIndex⟩, mem_zipIdx_iff_getElem?.mpr hinput,
      mem_filterMap.mpr ⟨⟨s, item.sectionIndex⟩, mem_zipIdx_iff_getElem?.mpr hs, ?_⟩⟩
    dsimp only
    rw [if_neg hkind, heligible, if_neg Bool.false_ne_true]

/-! ## What is dead -/

/-- The entry is a root where it is defined. -/
theorem mem_gcEntry (hok : TableOk (gcDefinitions inputs) table) : item ∈ gcEntry table entryName ↔
    ∃ definition, entryName = some definition.name ∧ definition.name ≠ "" ∧ TakesPrecedence inputs definition ∧
      item = ⟨definition.objectIndex, definition.sectionIndex⟩ := by
  unfold gcEntry
  cases entryName with
  | none => exact ⟨fun h => absurd h not_mem_nil, fun ⟨_, h, _⟩ => nomatch h⟩
  | some name =>
    dsimp only
    by_cases hempty : name = ""
    · rw [if_pos hempty]
      refine ⟨fun h => absurd h not_mem_nil, fun ⟨definition, h, hne, _⟩ => ?_⟩
      exact absurd ((some.inj h).symm.trans hempty) hne
    · rw [if_neg hempty]
      constructor
      · intro h
        cases hfind : gcFindDefinition table name with
        | none =>
          rw [hfind] at h
          exact absurd h not_mem_nil
        | some definition =>
          rw [hfind] at h
          obtain ⟨hkey, hprecedes⟩ := (gcFindDefinition_iff hok).mp hfind
          exact ⟨definition, congrArg some hkey.symm, hkey ▸ hempty, hprecedes, mem_singleton.mp h⟩
      · rintro ⟨definition, h, -, hprecedes, rfl⟩
        rw [(gcFindDefinition_iff hok).mpr ⟨(some.inj h).symm, hprecedes⟩]
        exact mem_singleton_self _

/-- The marked sections are the needed ones, and the worklist has room for all. -/
theorem gcMarks_spec {state : GcState} (h : gcMarks inputs entryName = some state) :
    (∀ item, state.worklist.marked item = true ↔ Needed inputs entryName item) ∧
      state.worklist.items.length ≤ totalSections inputs := by
  obtain ⟨table, htable, hloop⟩ := bind_eq_some_iff.mp h
  have hok := tableOk_gcDefinitions htable
  have hrun := gcLoop_worklist inputs table (totalSections inputs) 0
    { worklist := (gcRoots inputs ++ gcEntry table entryName).foldl Lib.Worklist.mark {} }
  rw [hloop, map_some] at hrun
  -- the roots and the entry are marked before the loop, which is the worklist of the library
  obtain ⟨hstart, hmem⟩ := Lib.Worklist.Ok.empty.foldl_mark (gcRoots inputs ++ gcEntry table entryName)
  have hcard : (gcItems inputs).toFinset.card ≤ totalSections inputs :=
    (toFinset_card_le _).trans_eq length_gcItems
  have hinv : Lib.Worklist.Inv (gcNext inputs table) (gcRoots inputs ++ gcEntry table entryName)
      (gcItems inputs).toFinset 0
      ((gcRoots inputs ++ gcEntry table entryName).foldl Lib.Worklist.mark {}) := by
    refine { hstart with start_mem := ?_, reached := ?_, expanded := ?_, inside := ?_ }
    · exact fun x hx => (hmem x).mpr (Or.inr hx)
    · intro y hy
      exact ⟨y, ((hmem y).mp hy).resolve_left not_mem_nil, Relation.ReflTransGen.refl⟩
    · exact fun k _ hk => absurd hk (Nat.not_lt_zero k)
    · intro x hx
      rw [List.mem_toFinset]
      rcases mem_append.mp (((hmem x).mp hx).resolve_left not_mem_nil) with hroot | hentry
      · obtain ⟨input, s, hinput, hs, -, -⟩ := mem_gcRoots.mp hroot
        exact mem_gcItems.mpr ⟨input, hinput, (List.getElem?_eq_some_iff.mp hs).1⟩
      · obtain ⟨definition, -, -, hprecedes, rfl⟩ := (mem_gcEntry hok).mp hentry
        exact hprecedes.mem_gcItems
  -- a relocation leads to a section of an input, so the items stay within the bound
  have hclosed : ∀ x ∈ (gcItems inputs).toFinset, ∀ y ∈ gcNext inputs table x, y ∈ (gcItems inputs).toFinset := by
    intro x _ y hy
    obtain ⟨relocation, -, hdefined⟩ := (mem_gcNext hok).mp hy
    exact List.mem_toFinset.mpr hdefined.mem_gcItems
  have hfuel : (gcItems inputs).toFinset.card ≤ 0 + totalSections inputs := by
    rw [Nat.zero_add]
    exact hcard
  obtain ⟨w, hw, hwok, hlength, hreach⟩ := Lib.Worklist.run_spec hclosed hinv hfuel
  rw [hw] at hrun
  obtain hrun := some.inj hrun
  rw [hrun]
  refine ⟨fun item => ?_, hlength.trans hcard⟩
  rw [hwok.marked, hreach]
  constructor
  · rintro ⟨x, hx, hpath⟩
    have hneeded : Needed inputs entryName x := by
      rcases mem_append.mp hx with hroot | hentry
      · exact Needed.root hroot
      · obtain ⟨definition, hname, hne, hprecedes, rfl⟩ := (mem_gcEntry hok).mp hentry
        exact Needed.entry hname hne hprecedes
    -- on the path of references from a root
    induction hpath with
    | refl => exact hneeded
    | tail _ hedge ih =>
      obtain ⟨relocation, hrelocation, hdefined⟩ := (mem_gcNext hok).mp hedge
      exact Needed.relocation ih hrelocation hdefined
  · intro hneeded
    induction hneeded with
    | root hroot => exact ⟨_, mem_append_left _ hroot, Relation.ReflTransGen.refl⟩
    | entry hname hne hprecedes =>
      exact ⟨_, mem_append_right _ ((mem_gcEntry hok).mpr ⟨_, hname, hne, hprecedes, rfl⟩),
        Relation.ReflTransGen.refl⟩
    | relocation _ hrelocation hdefined ih =>
      obtain ⟨x, hx, hpath⟩ := ih
      exact ⟨x, hx, hpath.tail ((mem_gcNext hok).mpr ⟨_, hrelocation, hdefined⟩)⟩

/-- The section is marked dead. -/
def isGcDead (inputs : List LinkedInputObject) (item : GcWorkItem) : Bool :=
  match inputs[item.objectIndex]? with
  | none => false
  | some input => input.sectionGcDead.getD item.sectionIndex false

/-- What the collection leaves: the same objects, in which the sections that may be dropped and are not needed are
dead. -/
theorem linkResolutionGcSections_dead {inputs' : List LinkedInputObject}
    (h : linkResolutionGcSections inputs entryName = some inputs') :
    (∀ k : ℕ, (inputs'[k]?).map LinkedInputObject.object = (inputs[k]?).map LinkedInputObject.object ∧
      (inputs'[k]?).map LinkedInputObject.isRuntimeDefault = (inputs[k]?).map LinkedInputObject.isRuntimeDefault) ∧
    ∀ item input s, inputs[item.objectIndex]? = some input → input.object.sections[item.sectionIndex]? = some s →
      (isGcDead inputs' item = true ↔ linkSectionIsGcEligible s = true ∧ ¬ Needed inputs entryName item) := by
  unfold linkResolutionGcSections at h
  split at h
  · rename_i hzero
    cases h
    refine ⟨fun _ => ⟨rfl, rfl⟩, fun item input s hinput hs => ?_⟩
    -- there are no sections at all
    have hmem : item ∈ gcItems inputs := mem_gcItems.mpr ⟨input, hinput, (List.getElem?_eq_some_iff.mp hs).1⟩
    rw [eq_nil_of_length_eq_zero (length_gcItems.trans hzero)] at hmem
    exact absurd hmem not_mem_nil
  · obtain ⟨state, hmarks, rfl⟩ := map_eq_some_iff.mp h
    obtain ⟨hmarked, -⟩ := gcMarks_spec hmarks
    refine ⟨fun k => ?_, fun item input s hinput hs => ?_⟩
    · rw [List.getElem?_map, List.getElem?_zipIdx]
      cases inputs[k]? <;> exact ⟨rfl, rfl⟩
    · unfold isGcDead
      rw [List.getElem?_map, List.getElem?_zipIdx, hinput]
      dsimp only [map_some]
      rw [getD_eq_getElem?_getD, List.getElem?_map, List.getElem?_zipIdx, hs, ← hmarked]
      simp [and_comm]

end Mettle.Linker

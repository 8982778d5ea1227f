import Mettle.Linker.GcReach

/-!
# Relocations lead to kept sections

The table of the program is built after the merge, from the symbols of the sections that were not dropped. It prefers
ordinary definitions to runtime defaults as the collection's own table does, so a relocation of a kept section is
resolved to the definition that the collection followed.
-/

open List Option

namespace Mettle.Linker

open Lib (lookup replace Holds)

variable {inputs : List LinkedInputObject} {fallbackAlignment : BitVec 64} {input : LinkedInputObject}
  {objectIndex : ℕ} {symbols symbols' : List LinkedSymbol} {name : String} {places : List (Option SectionPlace)}

/-! ## Which sections have a place -/

variable {k sectionIndex symbolIndex o i : ℕ} {resolution : LinkResolution} {item : GcWorkItem}
    {isRuntimeDefault : Bool} {symbol : LinkSymbol} {built : LinkSymbols} {place : SectionPlace}

/-- Related lists are related place by place. -/
theorem forall₂_getElem? {α β : Type*} {R : α → β → Prop} {l : List α} {l' : List β} (h : Forall₂ R l l') {x : α}
    (hx : l[k]? = some x) : ∃ y, l'[k]? = some y ∧ R x y := by
  induction h generalizing k with
  | nil => cases hx
  | @cons a b l l' hab _ ih =>
    cases k with
    | zero =>
      cases hx
      exact ⟨b, rfl, hab⟩
    | succ k => exact ih hx

/-- A numbered element. -/
theorem getElem?_zipIdx {α : Type*} {l : List α} {x : α} (h : l[k]? = some x) : l.zipIdx[k]? = some (x, k) := by
  rw [List.getElem?_zipIdx, h, map_some, Nat.zero_add]

/-- An object's section has a place when it is of a known kind and not dead. -/
theorem piece_isSome {s : LinkSection} : (input.piece fallbackAlignment objectIndex sectionIndex s).isSome = true ↔
      s.kind ≠ .unknown ∧ input.sectionGcDead.getD sectionIndex false = false := by
  unfold LinkedInputObject.piece
  cases s.kind <;> simp [linkSectionIndexFromKind]

/-- A section has a place exactly when it contributes. -/
theorem mergeObject_places {l : List (LinkSection × ℕ)} {sections sections' : Fin 7 → LinkedSection}
    (h : mergeObject fallbackAlignment input objectIndex l sections = some (sections', places)) :
    Forall₂ (fun x place => (place : Option SectionPlace).isSome =
      (input.piece fallbackAlignment objectIndex x.2 x.1).isSome) l places := by
  induction l generalizing sections places with
  | nil =>
    simp only [mergeObject, some.injEq, Prod.mk.injEq] at h
    rw [← h.2]
    exact Forall₂.nil
  | cons x l ih =>
    obtain ⟨s, sectionIndex⟩ := x
    cases hpiece : input.piece fallbackAlignment objectIndex sectionIndex s with
    | none =>
      simp only [mergeObject, hpiece, bind_eq_bind, bind_eq_some_iff] at h
      obtain ⟨⟨sections₁, places₁⟩, hrest, hresult⟩ := h
      cases hresult
      exact Forall₂.cons (by rw [hpiece]; rfl) (ih hrest)
    | some y =>
      simp only [mergeObject, hpiece, bind_eq_bind, bind_eq_some_iff] at h
      obtain ⟨merged, -, ⟨sections₁, places₁⟩, hrest, hresult⟩ := h
      cases hresult
      exact Forall₂.cons (by rw [hpiece]; rfl) (ih hrest)

/-- So it is for all objects. -/
theorem mergeObjects_places {l : List (LinkedInputObject × ℕ)} {resolution' : LinkResolution}
    (h : mergeObjects fallbackAlignment l resolution = some resolution') :
    ∃ more, resolution'.places = resolution.places ++ more ∧ Forall₂ (fun (x : LinkedInputObject × ℕ) places =>
        Forall₂ (fun y place => (place : Option SectionPlace).isSome =
          (x.1.piece fallbackAlignment x.2 y.2 y.1).isSome) x.1.object.sections.zipIdx places) l more := by
  induction l generalizing resolution with
  | nil =>
    rw [← some.inj h]
    exact ⟨[], (append_nil _).symm, Forall₂.nil⟩
  | cons x l ih =>
    simp only [mergeObjects, bind_eq_bind, bind_eq_some_iff] at h
    obtain ⟨⟨sections, places⟩, hobject, hrest⟩ := h
    obtain ⟨more, heq, hmore⟩ := ih hrest
    refine ⟨places :: more, ?_, Forall₂.cons (mergeObject_places hobject) hmore⟩
    rw [heq, append_assoc]
    rfl

/-- The place of a section after the merge. -/
def LinkResolution.placeOf (resolution : LinkResolution) (item : GcWorkItem) : Option SectionPlace :=
  (resolution.places.getD item.objectIndex []).getD item.sectionIndex none

/-- What is kept has a place. -/
theorem placeOf_isSome {s : LinkSection} (h : linkResolutionMergeSections inputs fallbackAlignment = some resolution)
    (hinput : inputs[item.objectIndex]? = some input) (hs : input.object.sections[item.sectionIndex]? = some s) :
    (resolution.placeOf item).isSome = true ↔ s.kind ≠ .unknown ∧ isGcDead inputs item = false := by
  obtain ⟨more, hplaces, hmore⟩ := mergeObjects_places h
  rw [nil_append] at hplaces
  obtain ⟨places, hget, hobject⟩ := forall₂_getElem? hmore (getElem?_zipIdx hinput)
  obtain ⟨place, hget', hsection⟩ := forall₂_getElem? hobject (getElem?_zipIdx hs)
  unfold LinkResolution.placeOf isGcDead
  rw [hplaces, hinput, getD_eq_getElem?_getD (l := more), hget, getD_some, getD_eq_getElem?_getD, hget',
    getD_some, hsection]
  exact piece_isSome

/-! ## The table of the program -/

/-- The object of a symbol is a runtime default. -/
def LinkedObjectSymbol.isDefault (inputs : List LinkedInputObject) (d : LinkedObjectSymbol) : Bool :=
  (inputs[d.objectIndex]?).elim false (·.isRuntimeDefault)

/-- The table's symbol of the name is defined by `found`, or by nothing. -/
def Held (symbols : List LinkedSymbol) (name : String) : Option LinkedObjectSymbol → Prop
  | none => ∀ s, linkResolutionFindSymbol symbols name = some s → s.isDefined = false
  | some d => ∃ s, linkResolutionFindSymbol symbols name = some s ∧ s.isDefined = true ∧
      s.definingObjectIndex = d.objectIndex ∧ s.definingSymbolIndex = d.symbolIndex ∧
      s.mergedSectionIndex = d.mergedSectionIndex ∧ s.mergedOffset = d.mergedOffset

/-- The table holds for each name the definition that takes precedence among those that were recorded. -/
def GlobalOk (inputs : List LinkedInputObject) (came : List LinkedObjectSymbol) (symbols : List LinkedSymbol) : Prop :=
  ∀ name, ∃ found, Holds LinkedObjectSymbol.name (LinkedObjectSymbol.isDefault inputs) came (some name) found ∧
    Held symbols name found

variable {came : List LinkedObjectSymbol} {d : LinkedObjectSymbol} {s s' : LinkedSymbol}

theorem record_name (h : s.record inputs isRuntimeDefault d = some s') : s'.name = s.name := by
  unfold LinkedSymbol.record at h
  dsimp only at h
  split at h
  · rw [← some.inj h]
  · split at h
    · split at h
      · rw [← some.inj h]
        rfl
      · split at h
        · rw [← some.inj h]
        · cases h
    · rw [← some.inj h]
      rfl

/-- What recording a symbol does to the table. -/
theorem recordGlobalSymbol_spec
    (h : linkResolutionRecordGlobalSymbol inputs isRuntimeDefault symbols d name = some symbols') :
    (∀ n ≠ name, linkResolutionFindSymbol symbols' n = linkResolutionFindSymbol symbols n) ∧
      ∃ s', linkResolutionFindSymbol symbols' name = some s' ∧
        ((linkResolutionFindSymbol symbols name).getD { name }).record inputs isRuntimeDefault d = some s' := by
  unfold linkResolutionRecordGlobalSymbol at h
  cases hfind : linkResolutionFindSymbol symbols name with
  | none =>
    rw [hfind] at h
    obtain ⟨s', hrecord, rfl⟩ := map_eq_some_iff.mp h
    have hname : s'.name = name := record_name hrecord
    refine ⟨fun n hne => ?_, s', ?_, hrecord⟩
    · refine (Lib.lookup_append LinkedSymbol.name).trans ?_
      rw [if_neg (fun heq => hne (heq.symm.trans hname)), or_none]
      rfl
    · refine (Lib.lookup_append LinkedSymbol.name).trans ?_
      rw [show lookup LinkedSymbol.name symbols name = none from hfind, if_pos hname]
      rfl
  | some held =>
    rw [hfind] at h
    obtain ⟨s', hrecord, rfl⟩ := map_eq_some_iff.mp h
    have hname : s'.name = name := (record_name hrecord).trans (Lib.lookup_key hfind)
    subst hname
    exact ⟨fun n hne => Lib.lookup_replace_ne hne, s', Lib.lookup_replace_self hfind, hrecord⟩

/-- Recording an undefined symbol leaves the definitions. -/
theorem GlobalOk.record_undefined (hok : GlobalOk inputs came symbols) (hd : d.isDefined = false)
    (h : linkResolutionRecordGlobalSymbol inputs isRuntimeDefault symbols d name = some symbols') :
    GlobalOk inputs came symbols' := by
  obtain ⟨hother, s', hfind', hrecord⟩ := recordGlobalSymbol_spec h
  intro n
  obtain ⟨found, hholds, hheld⟩ := hok n
  refine ⟨found, hholds, ?_⟩
  by_cases hn : n = name
  · subst hn
    unfold LinkedSymbol.record at hrecord
    rw [hd] at hrecord
    cases hrecord
    cases found with
    | none =>
      intro s hs
      obtain rfl := some.inj (hfind'.symm.trans hs)
      cases hfind : linkResolutionFindSymbol symbols n with
      | none => rfl
      | some held => exact hheld held hfind
    | some x =>
      obtain ⟨held, hfind, hrest⟩ := hheld
      refine ⟨_, hfind', ?_⟩
      rw [hfind]
      exact hrest
  · cases found with
    | none => exact fun s hs => hheld s ((hother n hn).symm.trans hs)
    | some x =>
      obtain ⟨held, hfind, hrest⟩ := hheld
      exact ⟨held, (hother n hn).trans hfind, hrest⟩

/-- Recording a definition. -/
theorem GlobalOk.record_defined (hok : GlobalOk inputs came symbols) (hd : d.isDefined = true)
    (hname : d.name = some name)
    (h : linkResolutionRecordGlobalSymbol inputs (d.isDefault inputs) symbols d name = some symbols') :
    GlobalOk inputs (came ++ [d]) symbols' := by
  obtain ⟨hother, s', hfind', hrecord⟩ := recordGlobalSymbol_spec h
  intro n
  obtain ⟨found, hholds, hheld⟩ := hok n
  by_cases hn : n = name
  · subst hn
    unfold LinkedSymbol.record at hrecord
    dsimp only at hrecord
    rw [hd, if_neg (by decide)] at hrecord
    have hdefine : ∀ s : LinkedSymbol, s' = s.define d → Held symbols' n (some d) := by
      rintro s rfl
      exact ⟨_, hfind', rfl, rfl, rfl, rfl, rfl⟩
    rw [← hname] at hholds ⊢
    -- the first definition of the name, or one that takes the place of another
    cases found with
    | none =>
      have hundefined : ((linkResolutionFindSymbol symbols n).getD { name := n }).isDefined = false := by
        cases hfind : linkResolutionFindSymbol symbols n with
        | none => rfl
        | some held => exact hheld held hfind
      rw [hundefined, if_neg Bool.false_ne_true] at hrecord
      exact ⟨some d, hholds.first, hdefine _ (some.inj hrecord).symm⟩
    | some x =>
      obtain ⟨held, hfind, hdefined, hobject, hrest⟩ := hheld
      rw [hfind, getD_some, if_pos hdefined] at hrecord
      have hholder : (inputs[held.definingObjectIndex]?).elim false (·.isRuntimeDefault) = x.isDefault inputs := by
        rw [hobject]
        rfl
      rw [hholder] at hrecord
      split at hrecord
      · rename_i hoverride
        obtain ⟨hdefault, hordinary⟩ := Bool.and_eq_true_iff.mp hoverride
        exact ⟨some d, hholds.override hdefault (Bool.not_eq_true' _ ▸ hordinary), hdefine _ (some.inj hrecord).symm⟩
      · obtain ⟨hkeep, hrecord⟩ := ite_none_right_eq_some.mp hrecord
        obtain ⟨hordinary, hdefault⟩ := Bool.and_eq_true_iff.mp hkeep
        cases hrecord
        exact ⟨some x, hholds.keep (Bool.not_eq_true' _ ▸ hordinary) hdefault, ⟨_, hfind', hdefined, hobject, hrest⟩⟩
  -- a symbol of another name is not touched
  · have hkey : d.name ≠ some n := fun heq => hn (some.inj (heq.symm.trans hname))
    refine ⟨found, hholds.other hkey, ?_⟩
    cases found with
    | none => exact fun s hs => hheld s ((hother n hn).symm.trans hs)
    | some x =>
      obtain ⟨held, hfind, hrest⟩ := hheld
      exact ⟨held, (hother n hn).trans hfind, hrest⟩

/-! ## The symbols of the objects -/

/-- The definition that a symbol of an object brings to the table of the program. -/
def recordedDefinition (input : LinkedInputObject) (places : List (Option SectionPlace)) (objectIndex : ℕ)
    (x : LinkSymbol × ℕ) : Option LinkedObjectSymbol :=
  (x.1.resolve input places objectIndex x.2).filter fun d => x.1.isRecorded input x.2 && d.isDefined

/-- What a symbol is mapped to keeps its name and says where it comes from. -/
theorem resolve_fields (h : symbol.resolve input places objectIndex symbolIndex = some d) :
    d.name = symbol.name ∧ d.objectIndex = objectIndex ∧ d.symbolIndex = symbolIndex := by
  unfold LinkSymbol.resolve at h
  split at h
  · rw [← some.inj h]
    exact ⟨rfl, rfl, rfl⟩
  · split at h
    · obtain ⟨sectionIndex, -, rfl⟩ := map_eq_some_iff.mp h
      split <;> exact ⟨rfl, rfl, rfl⟩
    · rw [← some.inj h]
      exact ⟨rfl, rfl, rfl⟩

/-- The symbols of one object are recorded in their order. -/
theorem buildObjectSymbols_spec (hinput : inputs[objectIndex]? = some input) {l : List (LinkSymbol × ℕ)}
    {objectSymbols : List LinkedObjectSymbol} (hok : GlobalOk inputs came symbols)
    (h : buildObjectSymbols inputs input places objectIndex l symbols = some (objectSymbols, symbols')) :
    Forall₂ (fun x d => x.1.resolve input places objectIndex x.2 = some d) l objectSymbols ∧
      GlobalOk inputs (came ++ l.filterMap (recordedDefinition input places objectIndex)) symbols' := by
  induction l generalizing came symbols objectSymbols with
  | nil =>
    cases h
    refine ⟨Forall₂.nil, ?_⟩
    rwa [filterMap_nil, append_nil]
  | cons x l ih =>
    obtain ⟨symbol, symbolIndex⟩ := x
    obtain ⟨d, hresolve, h⟩ := bind_eq_some_iff.mp h
    obtain ⟨symbols₁, hrecord, h⟩ := bind_eq_some_iff.mp h
    obtain ⟨⟨rest, symbols₂⟩, hrest, h⟩ := map_eq_some_iff.mp h
    cases h
    obtain ⟨hname, hobject, -⟩ := resolve_fields hresolve
    -- what the symbol itself brings
    have hstep : GlobalOk inputs (came ++ (recordedDefinition input places objectIndex (symbol, symbolIndex)).toList)
        symbols₁ := by
      unfold recordedDefinition
      rw [hresolve]
      cases hsymbol : symbol.name with
      | none =>
        rw [hsymbol] at hrecord
        cases hrecord
        have hnot : symbol.isRecorded input symbolIndex = false := by
          unfold LinkSymbol.isRecorded
          rw [hsymbol, isSome_none, Bool.and_false]
        rw [filter_some, hnot, Bool.false_and, if_neg Bool.false_ne_true, toList_none, append_nil]
        exact hok
      | some name =>
        rw [hsymbol] at hrecord
        dsimp only at hrecord
        cases hrecorded : symbol.isRecorded input symbolIndex with
        | false =>
          rw [hrecorded, if_neg Bool.false_ne_true] at hrecord
          cases hrecord
          rw [filter_some, Bool.false_and, if_neg Bool.false_ne_true, toList_none, append_nil]
          exact hok
        | true =>
          rw [hrecorded, if_pos rfl] at hrecord
          rw [filter_some, Bool.true_and]
          cases hd : d.isDefined with
          | false =>
            rw [if_neg Bool.false_ne_true, toList_none, append_nil]
            exact hok.record_undefined hd hrecord
          | true =>
            have hdefault : input.isRuntimeDefault = d.isDefault inputs := by
              rw [LinkedObjectSymbol.isDefault, hobject, hinput]
              rfl
            exact hok.record_defined hd (hname.trans hsymbol) (hdefault ▸ hrecord)
    obtain ⟨hmap, hglobal⟩ := ih hstep hrest
    refine ⟨Forall₂.cons hresolve hmap, ?_⟩
    rw [append_assoc] at hglobal
    rw [filterMap_cons]
    cases hcase : recordedDefinition input places objectIndex (symbol, symbolIndex) with
    | none => rwa [hcase] at hglobal
    | some d' => rwa [hcase] at hglobal

/-- The definitions that all objects bring. -/
def recordedDefinitions (places : List (List (Option SectionPlace))) (l : List (LinkedInputObject × ℕ)) :
    List LinkedObjectSymbol :=
  l.flatMap fun (input, objectIndex) =>
    input.object.symbols.zipIdx.filterMap (recordedDefinition input (places.getD objectIndex []) objectIndex)

/-- So are those of all objects. -/
theorem buildSymbols_spec {places : List (List (Option SectionPlace))} {l : List (LinkedInputObject × ℕ)}
    (hl : ∀ x ∈ l, inputs[x.2]? = some x.1) {built' : LinkSymbols} (hok : GlobalOk inputs came built.symbols)
    (h : buildSymbols inputs places l built = some built') :
    (∃ more, built'.objects = built.objects ++ more ∧ Forall₂ (fun x objectSymbols => Forall₂ (fun y d =>
        y.1.resolve x.1 (places.getD x.2 []) x.2 y.2 = some d) x.1.object.symbols.zipIdx objectSymbols) l more) ∧
      GlobalOk inputs (came ++ recordedDefinitions places l) built'.symbols := by
  induction l generalizing came built with
  | nil =>
    obtain rfl := some.inj h
    refine ⟨⟨[], (append_nil _).symm, Forall₂.nil⟩, ?_⟩
    show GlobalOk inputs (came ++ []) built.symbols
    rwa [append_nil]
  | cons x l ih =>
    obtain ⟨⟨objectSymbols, symbols⟩, hobject, hrest⟩ := bind_eq_some_iff.mp h
    obtain ⟨hmap, hglobal⟩ := buildObjectSymbols_spec (hl _ mem_cons_self) hok hobject
    obtain ⟨⟨more, heq, hmore⟩, hglobal'⟩ := ih (fun y hy => hl y (mem_cons_of_mem _ hy)) hglobal hrest
    refine ⟨⟨objectSymbols :: more, ?_, Forall₂.cons hmap hmore⟩, ?_⟩
    · rw [heq, append_assoc]
      rfl
    · rw [append_assoc] at hglobal'
      exact hglobal'

/-! ## The target of a relocation -/

/-- What the symbols of the objects are, once they are built. -/
structure Built (inputs : List LinkedInputObject) (resolution : LinkResolution) (built : LinkSymbols) : Prop where
  object : ∀ (o i : ℕ) (input : LinkedInputObject) (symbol : LinkSymbol), inputs[o]? = some input →
    input.object.symbols[i]? = some symbol → ∃ d, (built.objects.getD o [])[i]? = some d ∧
      symbol.resolve input (resolution.places.getD o []) o i = some d
  conversely : ∀ (o i : ℕ) (d : LinkedObjectSymbol), (built.objects.getD o [])[i]? = some d →
    ∃ input symbol, inputs[o]? = some input ∧ input.object.symbols[i]? = some symbol ∧
      symbol.resolve input (resolution.places.getD o []) o i = some d
  symbols : GlobalOk inputs (recordedDefinitions resolution.places inputs.zipIdx) built.symbols

/-- The tables that are built, as a relation to the input. -/
theorem built_of_linkResolutionBuildSymbols (h : linkResolutionBuildSymbols inputs resolution = some built) :
    Built inputs resolution built := by
  have hempty : GlobalOk inputs [] ({} : LinkSymbols).symbols := fun _ => ⟨none, Holds.nil, fun _ h => nomatch h⟩
  obtain ⟨⟨more, heq, hmore⟩, hglobal⟩ := buildSymbols_spec (fun x hx => mem_zipIdx_iff_getElem?.mp hx) hempty h
  rw [nil_append] at heq
  refine ⟨fun o i input symbol hinput hsymbol => ?_, fun o i d hd => ?_, hglobal⟩
  · obtain ⟨objectSymbols, hget, hmap⟩ := forall₂_getElem? hmore (getElem?_zipIdx hinput)
    obtain ⟨d, hd, hresolve⟩ := forall₂_getElem? hmap (getElem?_zipIdx hsymbol)
    refine ⟨d, ?_, hresolve⟩
    rw [heq, getD_eq_getElem?_getD, hget, getD_some, hd]
  · rw [heq, getD_eq_getElem?_getD] at hd
    cases hget : more[o]? with
    | none =>
      rw [hget] at hd
      cases hd
    | some objectSymbols =>
      rw [hget, getD_some] at hd
      obtain ⟨⟨input, o'⟩, hinput, hmap⟩ := forall₂_getElem? hmore.flip hget
      obtain ⟨⟨symbol, i'⟩, hsymbol, hresolve⟩ := forall₂_getElem? hmap.flip hd
      rw [List.getElem?_zipIdx] at hinput hsymbol
      obtain ⟨input', hinput', heqInput⟩ := map_eq_some_iff.mp hinput
      obtain ⟨symbol', hsymbol', heqSymbol⟩ := map_eq_some_iff.mp hsymbol
      obtain ⟨rfl, rfl⟩ := Prod.mk.inj heqInput
      obtain ⟨rfl, rfl⟩ := Prod.mk.inj heqSymbol
      rw [Nat.zero_add] at hresolve
      exact ⟨input', symbol', hinput', hsymbol', by rw [Nat.zero_add] at hresolve; exact hresolve⟩

/-- A symbol of a section that has a place is defined there. -/
theorem resolve_placed (h : symbol.resolve input places objectIndex symbolIndex = some d)
    (haux : symbol.isAuxiliary = false) (hsection : input.object.sectionOf symbol = some sectionIndex)
    (hplace : places.getD sectionIndex none = some place) :
    d.isAuxiliary = false ∧ d.isDefined = true ∧ d.mergedSectionIndex = some place.mergedIndex ∧
      d.mergedOffset = place.mergedOffset + symbol.value := by
  have hnonneg : 0 ≤ symbol.sectionIndex := by
    rw [(sectionOf_lt hsection).2]
    exact Int.natCast_nonneg _
  unfold LinkSymbol.resolve at h
  rw [haux, if_neg Bool.false_ne_true, if_pos hnonneg, hsection, map_some, hplace] at h
  rw [← some.inj h]
  exact ⟨rfl, rfl, rfl, rfl⟩

/-- A symbol is only defined when its section has a place. -/
theorem resolve_isDefined (h : symbol.resolve input places objectIndex symbolIndex = some d) (hd : d.isDefined = true) :
    ∃ sectionIndex place, symbol.isAuxiliary = false ∧ input.object.sectionOf symbol = some sectionIndex ∧
      places.getD sectionIndex none = some place ∧ d.mergedSectionIndex = some place.mergedIndex ∧
      d.mergedOffset = place.mergedOffset + symbol.value := by
  unfold LinkSymbol.resolve at h
  split at h
  · rw [← some.inj h] at hd
    cases hd
  · rename_i haux
    split at h
    · obtain ⟨sectionIndex, hsection, rfl⟩ := map_eq_some_iff.mp h
      cases hplace : places.getD sectionIndex none with
      | none =>
        rw [hplace] at hd
        cases hd
      | some place => exact ⟨sectionIndex, place, Bool.not_eq_true _ ▸ haux, hsection, hplace, rfl, rfl⟩
    · rw [← some.inj h] at hd
      cases hd

/-- A definition of the table lies in a section that was kept. -/
theorem mem_recordedDefinitions {places : List (List (Option SectionPlace))} :
    d ∈ recordedDefinitions places inputs.zipIdx ↔ ∃ (o i : ℕ) (input : LinkedInputObject) (symbol : LinkSymbol),
      inputs[o]? = some input ∧ input.object.symbols[i]? = some symbol ∧
      symbol.resolve input (places.getD o []) o i = some d ∧ symbol.isRecorded input i = true ∧ d.isDefined = true := by
  unfold recordedDefinitions
  rw [mem_flatMap]
  constructor
  · rintro ⟨⟨input, o⟩, hinput, hmem⟩
    obtain ⟨⟨symbol, i⟩, hsymbol, h⟩ := mem_filterMap.mp hmem
    obtain ⟨hresolve, hcond⟩ := filter_eq_some_iff.mp h
    obtain ⟨hrecorded, hd⟩ := Bool.and_eq_true_iff.mp hcond
    exact ⟨o, i, input, symbol, mem_zipIdx_iff_getElem?.mp hinput, mem_zipIdx_iff_getElem?.mp hsymbol,
      hresolve, hrecorded, hd⟩
  · rintro ⟨o, i, input, symbol, hinput, hsymbol, hresolve, hrecorded, hd⟩
    refine ⟨⟨input, o⟩, mem_zipIdx_iff_getElem?.mpr hinput,
      mem_filterMap.mpr ⟨⟨symbol, i⟩, mem_zipIdx_iff_getElem?.mpr hsymbol, ?_⟩⟩
    exact filter_eq_some_iff.mpr ⟨hresolve, Bool.and_eq_true_iff.mpr ⟨hrecorded, hd⟩⟩

/-- The target of a relocation is where it lies, and what it is called is not part of it. -/
def RelocationTarget.LiesIn (target : RelocationTarget) (place : SectionPlace) (value : BitVec 64) : Prop :=
  target.mergedSectionIndex = place.mergedIndex ∧ target.mergedOffset = place.mergedOffset + value

/-- A target lies in a section that has a place, and the symbol that defines it does so there. -/
theorem relocationResolveTarget_kept (hbuilt : Built inputs resolution built) {target : RelocationTarget}
    (h : relocationResolveTarget built o i = some target) :
    ∃ (item : GcWorkItem) (input : LinkedInputObject) (j : ℕ) (symbol : LinkSymbol) (place : SectionPlace),
      inputs[item.objectIndex]? = some input ∧ input.object.symbols[j]? = some symbol ∧
      input.object.sectionOf symbol = some item.sectionIndex ∧ resolution.placeOf item = some place ∧
      target.LiesIn place symbol.value := by
  obtain ⟨d, hd, h⟩ := bind_eq_some_iff.mp h
  obtain ⟨-, h⟩ := ite_none_left_eq_some.mp h
  -- what is left to show for a symbol of an object that is defined
  have hdefined : ∀ (o' j : ℕ) (input : LinkedInputObject) (symbol : LinkSymbol) (x : LinkedObjectSymbol),
      inputs[o']? = some input → input.object.symbols[j]? = some symbol →
      symbol.resolve input (resolution.places.getD o' []) o' j = some x → x.isDefined = true → ∀ k,
      x.mergedSectionIndex = some k → target.mergedSectionIndex = k → target.mergedOffset = x.mergedOffset →
      ∃ (item : GcWorkItem) (input : LinkedInputObject) (j : ℕ) (symbol : LinkSymbol) (place : SectionPlace),
        inputs[item.objectIndex]? = some input ∧ input.object.symbols[j]? = some symbol ∧
        input.object.sectionOf symbol = some item.sectionIndex ∧ resolution.placeOf item = some place ∧
        target.LiesIn place symbol.value := by
    intro o' j input symbol x hinput hsymbol hresolve hx k hk hindex hoffset
    obtain ⟨sectionIndex, place, -, hsection, hplace, hmerged, hvalue⟩ := resolve_isDefined hresolve hx
    refine ⟨⟨o', sectionIndex⟩, input, j, symbol, place, hinput, hsymbol, hsection, hplace, ?_, hoffset.trans hvalue⟩
    exact hindex.trans (some.inj (hk.symm.trans hmerged))
  split at h
  · rename_i k hd' hk
    cases h
    obtain ⟨input, symbol, hinput, hsymbol, hresolve⟩ := hbuilt.conversely o i d hd
    exact hdefined o i input symbol d hinput hsymbol hresolve hd' k hk rfl rfl
  · obtain ⟨s, hfind, h⟩ := bind_eq_some_iff.mp h
    obtain ⟨name, -, hfind⟩ := bind_eq_some_iff.mp hfind
    split at h
    · rename_i k hs hk
      cases h
      obtain ⟨found, hholds, hheld⟩ := hbuilt.symbols name
      cases found with
      | none =>
        rw [hheld s hfind] at hs
        cases hs
      | some x =>
        obtain ⟨s', hfind', -, -, -, hmerged, hoffset⟩ := hheld
        obtain rfl := some.inj (hfind.symm.trans hfind')
        obtain ⟨o', j, input, symbol, hinput, hsymbol, hresolve, -, hx⟩ :=
          mem_recordedDefinitions.mp (hholds.mem x rfl).1
        exact hdefined o' j input symbol x hinput hsymbol hresolve hx k (hmerged.symm.trans hk) rfl hoffset
    · cases h

/-- An external symbol of a section that has a place goes to the table. -/
theorem isRecorded_of_placed (item : GcWorkItem)
    (hmerge : linkResolutionMergeSections inputs fallbackAlignment = some resolution)
    (hinput : inputs[item.objectIndex]? = some input) (haux : symbol.isAuxiliary = false)
    (hexternal : symbol.isExternal = true) (hname : symbol.name = some name)
    (hsection : input.object.sectionOf symbol = some item.sectionIndex)
    (hplace : resolution.placeOf item = some place) : symbol.isRecorded input symbolIndex = true := by
  obtain ⟨hlt, hindex⟩ := sectionOf_lt hsection
  have hdead : input.sectionGcDead.getD symbol.sectionIndex.toNat false = false := by
    have hlive := ((placeOf_isSome hmerge hinput (List.getElem?_eq_getElem hlt)).mp (by rw [hplace]; rfl)).2
    unfold isGcDead at hlive
    rw [hinput] at hlive
    rw [hindex, Int.toNat_natCast]
    exact hlive
  have hdefined : symbol.sectionIndex ≠ linkSectionIndexUndefined := by
    rw [hindex]
    exact ne_of_gt (lt_of_lt_of_le (by decide) (Int.natCast_nonneg _))
  unfold LinkSymbol.isRecorded
  rw [haux, hdead, decide_eq_false hdefined, hexternal, hname]
  simp

/-- A relocation whose symbol is defined in a section that has a place resolves to it there. -/
theorem relocationResolveTarget_definedIn
    (hmerge : linkResolutionMergeSections inputs fallbackAlignment = some resolution)
    (hbuilt : Built inputs resolution built) (h : DefinedIn inputs o i item)
    (hplace : resolution.placeOf item = some place) :
    ∃ (input : LinkedInputObject) (j : ℕ) (symbol : LinkSymbol) (target : RelocationTarget),
      inputs[item.objectIndex]? = some input ∧ input.object.symbols[j]? = some symbol ∧
      input.object.sectionOf symbol = some item.sectionIndex ∧
      relocationResolveTarget built o i = some target ∧ target.LiesIn place symbol.value := by
  cases h with
  | @own input symbol sectionIndex hinput hsymbol haux hsection =>
    obtain ⟨d, hd, hresolve⟩ := hbuilt.object o i input symbol hinput hsymbol
    obtain ⟨haux', hdefined, hmerged, hoffset⟩ := resolve_placed hresolve haux hsection hplace
    refine ⟨input, i, symbol, ⟨d.name.getD "<unnamed>", place.mergedIndex, d.mergedOffset, d.virtualAddress⟩, hinput,
      hsymbol, hsection, ?_, rfl, hoffset⟩
    unfold relocationResolveTarget
    rw [hd, bind_some, haux', if_neg Bool.false_ne_true, hdefined, hmerged]
  | @external input symbol definition hinput hsymbol haux hundefined hname hprecedes =>
    obtain ⟨d, hd, hresolve⟩ := hbuilt.object o i input symbol hinput hsymbol
    -- the symbol itself is defined nowhere, so the table is asked
    have hlocal : d.isAuxiliary = false ∧ d.isDefined = false ∧ d.name = some definition.name := by
      refine ⟨?_, ?_, (resolve_fields hresolve).1.trans hname⟩
      · unfold LinkSymbol.resolve at hresolve
        rw [haux, if_neg Bool.false_ne_true, if_neg (by rw [hundefined]; decide)] at hresolve
        rw [← some.inj hresolve]
      · by_contra hd'
        obtain ⟨_, _, -, hsection, -⟩ := resolve_isDefined hresolve (Bool.not_eq_false _ ▸ hd')
        rw [sectionOf_undefined hundefined] at hsection
        cases hsection
    obtain ⟨input₀, j, symbol₀, hinput₀, hsymbol₀, haux₀, hexternal₀, hname₀, hsection₀, hdefault₀⟩ :=
      mem_gcDefinitions.mp hprecedes.1
    obtain ⟨x₀, -, hresolve₀⟩ := hbuilt.object definition.objectIndex j input₀ symbol₀ hinput₀ hsymbol₀
    obtain ⟨-, hdefined₀, hmerged₀, hoffset₀⟩ := resolve_placed hresolve₀ haux₀ hsection₀ hplace
    obtain ⟨hxname, hxobject, -⟩ := resolve_fields hresolve₀
    have hx₀ : x₀ ∈ recordedDefinitions resolution.places inputs.zipIdx :=
      mem_recordedDefinitions.mpr ⟨_, j, input₀, symbol₀, hinput₀, hsymbol₀, hresolve₀,
        isRecorded_of_placed ⟨definition.objectIndex, definition.sectionIndex⟩ hmerge hinput₀ haux₀ hexternal₀
          hname₀ hsection₀ hplace, hdefined₀⟩
    have hkey₀ : x₀.name = some definition.name := hxname.trans hname₀
    have hxdefault : x₀.isDefault inputs = definition.isRuntimeDefault := by
      unfold LinkedObjectSymbol.isDefault
      rw [hxobject, hinput₀]
      exact hdefault₀
    obtain ⟨found, hholds, hheld⟩ := hbuilt.symbols definition.name
    cases found with
    | none => exact absurd hkey₀ (hholds.absent rfl x₀ hx₀)
    | some x =>
      have hsame : x₀ = x := by
        cases hd₀ : definition.isRuntimeDefault with
        | false => exact hholds.ordinary x rfl x₀ hx₀ hkey₀ (hxdefault.trans hd₀)
        | true =>
          -- then every definition of the name is a default, and so is the one that was found
          obtain ⟨hxmem, hxkey⟩ := hholds.mem x rfl
          obtain ⟨o', j', input', symbol', hinput', hsymbol', hresolve', hrecorded', hdefined'⟩ :=
            mem_recordedDefinitions.mp hxmem
          obtain ⟨sectionIndex', place', haux', hsection', -⟩ := resolve_isDefined hresolve' hdefined'
          obtain ⟨hname', hobject', -⟩ := resolve_fields hresolve'
          have hexternal' : symbol'.isExternal = true := by
            exact (Bool.and_eq_true_iff.mp (Bool.and_eq_true_iff.mp hrecorded').1).2
          have hmem' : (⟨definition.name, o', sectionIndex', input'.isRuntimeDefault⟩ : GcDefinition) ∈
              gcDefinitions inputs :=
            mem_gcDefinitions.mpr ⟨input', j', symbol', hinput', hsymbol', haux', hexternal',
              (hname'.symm.trans hxkey), hsection', rfl⟩
          refine hholds.default x rfl ?_ x₀ hx₀ hkey₀
          unfold LinkedObjectSymbol.isDefault
          rw [hobject', hinput']
          exact hprecedes.2 hd₀ _ hmem' rfl
      subst hsame
      obtain ⟨s, hfind, hs, -, -, hmerged, hoffset⟩ := hheld
      refine ⟨input₀, j, symbol₀, ⟨definition.name, place.mergedIndex, s.mergedOffset, s.virtualAddress⟩, hinput₀,
        hsymbol₀, hsection₀, ?_, rfl, hoffset.trans hoffset₀⟩
      unfold relocationResolveTarget
      rw [hd, bind_some, hlocal.1, if_neg Bool.false_ne_true, hlocal.2.1, hlocal.2.2]
      dsimp only [bind_some]
      rw [hfind, bind_some, hs, hmerged, hmerged₀]
      rfl

end Mettle.Linker

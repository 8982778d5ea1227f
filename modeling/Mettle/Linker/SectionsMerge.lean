import Mettle.Linker.SectionsSound

/-!
# The merge as a whole

Each merged section is filled with the pieces of its kind, in the order of the input.
-/

open List Option

namespace Mettle.Linker

variable {fallbackAlignment : BitVec 64}

/-- Placing pieces in two parts. -/
theorem LinkedSection.placeAll_append (m : LinkedSection) (ps qs : List Piece) :
    m.placeAll (ps ++ qs) = (m.placeAll ps).bind fun m' => m'.placeAll qs := by
  induction ps generalizing m with
  | nil => rfl
  | cons p ps ih =>
    show (m.place p).bind _ = ((m.place p).bind _).bind _
    rw [bind_assoc]
    congr 1
    funext m₁
    exact ih m₁

variable {input : LinkedInputObject} {objectIndex sectionIndex : ℕ} {s : LinkSection} {k : Fin 7} {p : Piece}
    {inputs : List LinkedInputObject} {v : BitVec 64} {ps : List Piece}

/-- The loop over an object places its pieces. -/
theorem mergeObject_placeAll {l : List (LinkSection × ℕ)} {sections sections' : Fin 7 → LinkedSection}
    {places : List (Option SectionPlace)}
    (h : mergeObject fallbackAlignment input objectIndex l sections = some (sections', places)) (k : Fin 7) :
    (sections k).placeAll (objectPieces fallbackAlignment k input objectIndex l) = some (sections' k) := by
  induction l generalizing sections places with
  | nil =>
    simp only [mergeObject, some.injEq, Prod.mk.injEq] at h
    rw [← h.1]
    rfl
  | cons x l ih =>
    obtain ⟨s, sectionIndex⟩ := x
    cases hpiece : input.piece fallbackAlignment objectIndex sectionIndex s with
    | none =>
      simp only [mergeObject, hpiece, bind_eq_bind, bind_eq_some_iff] at h
      obtain ⟨⟨sections₁, places₁⟩, hrest, hresult⟩ := h
      obtain ⟨rfl, -⟩ := Prod.mk.inj (some.inj hresult)
      simp only [objectPieces, filterMap_cons, hpiece, bind_none]
      exact ih hrest
    | some y =>
      obtain ⟨mergedIndex, p⟩ := y
      simp only [mergeObject, hpiece, bind_eq_bind, bind_eq_some_iff] at h
      obtain ⟨merged, hplace, ⟨sections₁, places₁⟩, hrest, hresult⟩ := h
      obtain ⟨rfl, -⟩ := Prod.mk.inj (some.inj hresult)
      have hih := ih hrest
      by_cases hk : mergedIndex = k
      · subst hk
        rw [Function.update_self] at hih
        simp only [objectPieces, filterMap_cons, hpiece, bind_some, if_true]
        show ((sections mergedIndex).place p).bind _ = _
        rw [hplace]
        exact hih
      · rw [Function.update_of_ne (Ne.symm hk)] at hih
        simp only [objectPieces, filterMap_cons, hpiece, bind_some, if_neg hk]
        exact hih

/-- The loop over the objects places the pieces of all. -/
theorem mergeObjects_placeAll {l : List (LinkedInputObject × ℕ)} {resolution resolution' : LinkResolution}
    (h : mergeObjects fallbackAlignment l resolution = some resolution') (k : Fin 7) :
    (resolution.sections k).placeAll (l.flatMap fun (input, objectIndex) =>
      objectPieces fallbackAlignment k input objectIndex input.object.sections.zipIdx) =
        some (resolution'.sections k) := by
  induction l generalizing resolution with
  | nil =>
    rw [← some.inj h]
    rfl
  | cons x l ih =>
    simp only [mergeObjects, bind_eq_bind, bind_eq_some_iff] at h
    obtain ⟨⟨sections, places⟩, hobject, hrest⟩ := h
    rw [flatMap_cons, LinkedSection.placeAll_append, mergeObject_placeAll hobject k]
    exact ih hrest

/-- What a section contributes. -/
theorem LinkedInputObject.piece_eq (h : input.piece fallbackAlignment objectIndex sectionIndex s = some (k, p)) :
    p = { objectIndex, sectionIndex
          alignment := linkSectionAlignment s fallbackAlignment
          contributionSize := linkEstimateSectionSize input.object sectionIndex
          raw := if s.kind = .bss then [] else s.rawData } := by
  unfold LinkedInputObject.piece at h
  split at h
  · exact absurd h (by simp)
  · split at h
    · exact absurd h (by simp)
    · exact (Prod.mk.inj (some.inj h)).2.symm

/-- A piece of the object is one of its sections. -/
theorem piece_of_mem_objectPieces {x : LinkSection × ℕ}
    (h : ((input.piece fallbackAlignment objectIndex x.2 x.1).bind fun (mergedIndex, p) => if mergedIndex = k then some p else none) = some p) :
    input.piece fallbackAlignment objectIndex x.2 x.1 = some (k, p) := by
  obtain ⟨⟨mergedIndex, q⟩, hpiece, hq⟩ := bind_eq_some_iff.mp h
  simp only [ite_none_right_eq_some, some.injEq] at hq
  rw [hpiece, hq.1, hq.2]

/-- A piece is what a section of the input brings. -/
theorem exists_section_of_mem_pieces (h : p ∈ pieces fallbackAlignment inputs k) :
    ∃ input s, inputs[p.objectIndex]? = some input ∧ input.object.sections[p.sectionIndex]? = some s ∧
      p.contributionSize = linkEstimateSectionSize input.object p.sectionIndex ∧
      p.raw = if s.kind = .bss then [] else s.rawData := by
  simp only [pieces, objectPieces, mem_flatMap, mem_filterMap] at h
  obtain ⟨⟨input, objectIndex⟩, hinput, ⟨s, sectionIndex⟩, hs, hpiece⟩ := h
  rw [LinkedInputObject.piece_eq (piece_of_mem_objectPieces hpiece)]
  exact ⟨input, s, mem_zipIdx_iff_getElem?.mp hinput, mem_zipIdx_iff_getElem?.mp hs, rfl, rfl⟩

/-- The data of a contribution are those of its piece. -/
theorem rawBytes_contribution (h : p ∈ pieces fallbackAlignment inputs k) (start : BitVec 64) :
    rawBytes inputs (p.contribution start) = p.raw := by
  obtain ⟨input, s, hinput, hs, -, hraw⟩ := exists_section_of_mem_pieces h
  simp only [rawBytes, Piece.contribution, hinput, bind_some, hs, hraw]

/-- The estimate of a section with raw data is not zero. -/
theorem linkEstimateSectionSize_ne_zero {object : LinkObject} (hs : object.sections[sectionIndex]? = some s)
    (hkind : s.kind ≠ .bss) (hraw : s.rawData ≠ []) : linkEstimateSectionSize object sectionIndex ≠ 0 := by
  have hsize : s.sizeOfRawData ≠ 0 := by
    intro h
    have hlength := congrArg BitVec.toNat h
    rw [LinkSection.sizeOfRawData, BitVec.toNat_ofNat, Nat.mod_eq_of_lt s.rawData_length] at hlength
    exact hraw (length_eq_zero_iff.mp hlength)
  simp only [linkEstimateSectionSize, hs]
  split
  · rename_i symbol hfind
    have := find?_some hfind
    simp only [LinkSymbol.isSectionSymbol, decide_eq_true_eq] at this
    exact this.2.1
  · rw [if_pos hkind]
    split
    · rename_i hlt
      intro h
      rw [h, BitVec.lt_def] at hlt
      exact absurd hlt (by simp)
    · exact hsize

/-- A piece with data is not empty. -/
theorem contributionSize_ne_zero : ∀ p ∈ pieces fallbackAlignment inputs k, p.raw ≠ [] → p.contributionSize ≠ 0 := by
  intro p hp hne
  obtain ⟨input, s, -, hs, hsize, hraw⟩ := exists_section_of_mem_pieces hp
  rw [hraw] at hne
  rw [hsize]
  split at hne
  · exact absurd rfl hne
  · rename_i hkind
    exact linkEstimateSectionSize_ne_zero hs hkind hne

/-! ## The order of the input -/

theorem pairwise_zipIdx {α : Type*} (l : List α) : l.zipIdx.Pairwise fun x y => x.2 < y.2 := by
  have h : (l.zipIdx.map Prod.snd).Pairwise (· < ·) := by
    rw [zipIdx_map_snd]
    exact pairwise_lt_range' 1 (by simp)
  exact pairwise_map.mp h

/-- The order of the input, on pieces. -/
def Piece.Before (p q : Piece) : Prop :=
  p.objectIndex < q.objectIndex ∨ (p.objectIndex = q.objectIndex ∧ p.sectionIndex < q.sectionIndex)

/-- The pieces come in the order of the objects and their sections. -/
theorem pairwise_pieces (inputs : List LinkedInputObject) (k : Fin 7) :
    (pieces fallbackAlignment inputs k).Pairwise Piece.Before := by
  refine pairwise_flatMap.mpr ⟨fun x _ => ?_, (pairwise_zipIdx inputs).imp fun {x y} hxy p hp q hq => ?_⟩
  · refine pairwise_filterMap.mpr ((pairwise_zipIdx _).imp fun {y z} hyz p hp q hq => .inr ?_)
    rw [LinkedInputObject.piece_eq (piece_of_mem_objectPieces hp),
      LinkedInputObject.piece_eq (piece_of_mem_objectPieces hq)]
    exact ⟨rfl, hyz⟩
  · obtain ⟨y, -, hp⟩ := mem_filterMap.mp hp
    obtain ⟨z, -, hq⟩ := mem_filterMap.mp hq
    rw [LinkedInputObject.piece_eq (piece_of_mem_objectPieces hp),
      LinkedInputObject.piece_eq (piece_of_mem_objectPieces hq)]
    exact .inl hxy

/-- A contribution is of a piece. -/
theorem mem_contributionsFrom {c : LinkedSectionContribution} (h : c ∈ contributionsFrom v ps) :
    ∃ p ∈ ps, ∃ start, c = p.contribution start := by
  induction ps generalizing v with
  | nil => exact absurd h not_mem_nil
  | cons p ps ih =>
    rcases mem_cons.mp h with rfl | h
    · exact ⟨p, mem_cons_self, _, rfl⟩
    · obtain ⟨q, hq, hc⟩ := ih h
      exact ⟨q, mem_cons_of_mem p hq, hc⟩

/-- The contributions come in the order of the pieces. -/
theorem pairwise_contributionsFrom (h : ps.Pairwise Piece.Before) :
    (contributionsFrom v ps).Pairwise LinkedSectionContribution.Before := by
  induction ps generalizing v with
  | nil => exact Pairwise.nil
  | cons p ps ih =>
    obtain ⟨hhead, htail⟩ := pairwise_cons.mp h
    refine pairwise_cons.mpr ⟨fun d hd => ?_, ih htail⟩
    obtain ⟨q, hq, start, rfl⟩ := mem_contributionsFrom hd
    exact hhead q hq

/-- A merged section filled from its beginning is laid out well exactly when its pieces meet the condition. -/
theorem LinkedSection.laid_iff {m : LinkedSection}
    (h : LinkedSection.placeAll {} (pieces fallbackAlignment inputs k) = some m) :
    m.Laid (rawBytes inputs) ↔ Seated 0 (pieces fallbackAlignment inputs k) := by
  have hempty : ({} : LinkedSection).Filled := ⟨rfl, le_rfl⟩
  have hfilled := LinkedSection.placeAll_filled h hempty
  have hfits := LinkedSection.placeAll_fits h contributionSize_ne_zero
  have hraw : ∀ p ∈ pieces fallbackAlignment inputs k, ∀ start,
      rawBytes inputs (p.contribution start) = p.raw := fun p hp start => rawBytes_contribution hp start
  obtain ⟨hcontributions, hvirtual⟩ := LinkedSection.placeAll_layout h
  rw [nil_append] at hcontributions
  constructor
  -- what is laid out has its seats; conversely the seats say where each contribution stands
  · intro hlaid
    refine (LinkedSection.placeAll_laying h hempty hfits).seated_of_laid ⟨fun hne => absurd rfl hne, ?_, ?_⟩ ?_ hraw ?_
    · exact hcontributions ▸ hlaid.aligned
    · rw [nil_append, ← hcontributions]
      exact hlaid.disjoint
    · exact hcontributions ▸ hlaid.within
    · rw [← hcontributions]
      exact fun c hc hne k hk => (hlaid.backed c hc hne k hk).2
  · intro hseated
    refine ⟨?_, ?_, ?_, ?_, BitVec.le_def.mpr hfilled.le, ?_⟩
    · rw [hcontributions]
      exact pairwise_contributionsFrom (pairwise_pieces inputs k)
    · rw [hcontributions]
      exact hseated.aligned
    · rw [hcontributions]
      exact hseated.disjoint hfits
    · rw [hcontributions, hvirtual]
      exact hseated.within hfits
    · rw [hcontributions]
      intro c hc hne k hk
      have hbyte := (LinkedSection.placeAll_laying h hempty hfits).backed hseated hraw c hc hne k hk
      refine ⟨?_, hbyte⟩
      rw [← hfilled.length]
      exact (List.getElem?_eq_some_iff.mp hbyte).1

/-- The merge lays out every merged section well exactly when the pieces of every kind meet the condition. -/
theorem linkResolutionMergeSections_laid_iff {inputs : List LinkedInputObject} {resolution : LinkResolution}
    (h : linkResolutionMergeSections inputs fallbackAlignment = some resolution) :
    (∀ k, (resolution.sections k).Laid (rawBytes inputs)) ↔
      ∀ k, Seated 0 (pieces fallbackAlignment inputs k) :=
  forall_congr' fun k => LinkedSection.laid_iff (mergeObjects_placeAll h k)

/-- Four bytes of data from an object whose section symbol gives `length` for the length of the section. -/
def dataObject (length : BitVec 64) : LinkedInputObject where
  object :=
    { sections := [{ name := ".data", kind := .data, virtualSize := 4, rawData := [1, 2, 3, 4], alignment := 4 }]
      symbols := [{ name := some ".data", sectionIndex := 0, auxSectionLength := length }] }

theorem linkResolutionMergeSections_laid_iff_dataObjects :
    ∃ resolution, linkResolutionMergeSections [dataObject 4, dataObject 4] 16 = some resolution ∧
      ∀ k, (resolution.sections k).Laid (rawBytes [dataObject 4, dataObject 4]) := by
  have hsome : (linkResolutionMergeSections [dataObject 4, dataObject 4] 16).isSome := by decide
  obtain ⟨resolution, h⟩ := Option.isSome_iff_exists.mp hsome
  exact ⟨resolution, h, (linkResolutionMergeSections_laid_iff h).mpr (by decide)⟩

/-- The first object says its section is eight bytes long: the second one is merged into its last four. -/
theorem linkResolutionMergeSections_overlaps :
    ∃ resolution, linkResolutionMergeSections [dataObject 8, dataObject 4] 16 = some resolution ∧
      ¬ ∀ k, (resolution.sections k).Laid (rawBytes [dataObject 8, dataObject 4]) := by
  have hmerge : (linkResolutionMergeSections [dataObject 8, dataObject 4] 16).map
      (fun resolution => (resolution.sections 2).contributions) =
        some [⟨0, 0, 0, 8, 4⟩, ⟨1, 0, 4, 4, 4⟩] := by decide
  obtain ⟨resolution, h, hcontributions⟩ := Option.map_eq_some_iff.mp hmerge
  refine ⟨resolution, h, fun hlaid => ?_⟩
  have hdisjoint := (hlaid 2).disjoint
  rw [hcontributions] at hdisjoint
  refine absurd (List.rel_of_pairwise_cons hdisjoint (List.mem_singleton_self _)) ?_
  exact Set.not_disjoint_iff.mpr ⟨4, ⟨by decide, by decide⟩, ⟨by decide, by decide⟩⟩

end Mettle.Linker

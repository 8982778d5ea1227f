import Mathlib

/-!
# Merging the sections of the input objects

The linker lays the sections of all objects out in seven merged sections, one for each kind
(`linker/symbol_resolve.c`). Sizes and offsets are `size_t`, so all sums wrap. A section with raw data is
copied into the buffer of its merged section; the others only reserve address space.
-/

namespace Mettle.Linker

/-- `LinkSectionKind`. -/
inductive LinkSectionKind where
  | unknown
  | text
  | rdata
  | data
  | bss
  | tls
  | pdata
  | xdata
  deriving DecidableEq, Repr

/-- `LinkRelocKind`. -/
inductive LinkRelocKind where
  | none
  | abs64
  | pc32
  | abs32
  | imageRel32
  | secrel32
  | tpoff32
  | gotpcrel32
  | gotpcrelx32
  deriving DecidableEq, Repr

/-- `LinkReloc`. -/
structure LinkReloc where
  offset : BitVec 64 := 0
  symbolIndex : ℕ
  kind : LinkRelocKind := .pc32
  addend : ℤ := 0
  addendIsExplicit : Bool := false
  deriving DecidableEq, Repr

/-- `LinkSection`, as the linker reads it; `size_of_raw_data` is the length of the raw data. -/
structure LinkSection where
  name : String
  kind : LinkSectionKind
  virtualSize : BitVec 64
  rawData : List UInt8
  rawData_length : rawData.length < 2 ^ 64 := by decide
  alignment : BitVec 64
  relocations : List LinkReloc := []
  deriving DecidableEq

/-- `size_of_raw_data`. -/
def LinkSection.sizeOfRawData (s : LinkSection) : BitVec 64 := BitVec.ofNat 64 s.rawData.length

/-- `LinkSymbol`, as the linker reads it. -/
structure LinkSymbol where
  name : Option String
  value : BitVec 64 := 0
  sectionIndex : ℤ
  isExternal : Bool := false
  isAuxiliary : Bool := false
  auxSectionLength : BitVec 64 := 0
  isWeak : Bool := false
  deriving DecidableEq

/-- `LinkObject`. -/
structure LinkObject where
  sections : List LinkSection
  symbols : List LinkSymbol := []
  deriving DecidableEq

/-- `LinkedInputObject` before the merge: the object, the sections that were found dead and, when there was
something to collect, the symbols that a kept section refers to. -/
structure LinkedInputObject where
  object : LinkObject
  isRuntimeDefault : Bool := false
  sectionGcDead : List Bool := []
  symbolGcReferenced : Option (List Bool) := none
  deriving DecidableEq

/-- `linker_align_up`. -/
def linkerAlignUp (value alignment : BitVec 64) : BitVec 64 :=
  if alignment = 0 then value else (value + alignment - 1) &&& ~~~(alignment - 1)

/-- `link_section_index_from_kind`. -/
def linkSectionIndexFromKind : LinkSectionKind → Option (Fin 7)
  | .text => some 0
  | .rdata => some 1
  | .data => some 2
  | .bss => some 3
  | .pdata => some 4
  | .xdata => some 5
  | .tls => some 6
  | .unknown => none

/-- `link_default_section_alignment`. -/
def linkDefaultSectionAlignment (kind : LinkSectionKind) (fallbackAlignment : BitVec 64) : BitVec 64 :=
  if 1 < fallbackAlignment then fallbackAlignment
  else
    match kind with
    | .text | .rdata | .data | .bss | .pdata | .xdata => 16
    | .tls | .unknown => 1

/-- `link_section_alignment`. -/
def linkSectionAlignment (s : LinkSection) (fallbackAlignment : BitVec 64) : BitVec 64 :=
  if 1 < s.alignment then s.alignment else linkDefaultSectionAlignment s.kind fallbackAlignment

/-- The symbol of a section: it bears the section's name, and its auxiliary record the section's length. -/
def LinkSymbol.isSectionSymbol (s : LinkSection) (sectionIndex : ℕ) (symbol : LinkSymbol) : Bool :=
  !symbol.isAuxiliary ∧ symbol.auxSectionLength ≠ 0 ∧ !symbol.isExternal ∧
    symbol.sectionIndex = sectionIndex ∧ symbol.name = some s.name

/-- `link_estimate_section_size`. -/
def linkEstimateSectionSize (object : LinkObject) (sectionIndex : ℕ) : BitVec 64 :=
  match object.sections[sectionIndex]? with
  | none => 0
  | some s =>
    match object.symbols.find? (LinkSymbol.isSectionSymbol s sectionIndex) with
    | some symbol => symbol.auxSectionLength
    | none =>
      let size := if s.sizeOfRawData < s.virtualSize then s.virtualSize else s.sizeOfRawData
      if s.kind ≠ .bss then size
      else
        let symbols := object.symbols.filter fun symbol : LinkSymbol =>
          !symbol.isAuxiliary ∧ symbol.sectionIndex = (sectionIndex : ℤ)
        let size := symbols.foldl (fun size symbol => if size < symbol.value + 1 then symbol.value + 1 else size)
          size
        if size = 0 ∧ symbols ≠ [] then 1 else size

/-- `LinkedSectionContribution`. -/
structure LinkedSectionContribution where
  objectIndex : ℕ
  sectionIndex : ℕ
  mergedOffset : BitVec 64
  size : BitVec 64
  alignment : BitVec 64
  deriving DecidableEq, Repr

/-- `LinkedSection`; `data` are the first `size` bytes of the buffer. -/
structure LinkedSection where
  data : List UInt8 := []
  dataCapacity : BitVec 64 := 0
  size : BitVec 64 := 0
  virtualSize : BitVec 64 := 0
  alignment : BitVec 64 := 1
  contributions : List LinkedSectionContribution := []
  deriving DecidableEq, Repr

/-- What a section brings to its merged section: the locals of the loop body. A `.bss` section brings no
bytes, whatever its raw data. -/
structure Piece where
  objectIndex : ℕ
  sectionIndex : ℕ
  alignment : BitVec 64
  contributionSize : BitVec 64
  raw : List UInt8
  deriving DecidableEq, Repr

/-- The doubling loop of `link_section_reserve_data`. A capacity that has wrapped to zero stays zero, so
a loop that is not done after 64 rounds never is. -/
def doubleCapacity (minimumSize : BitVec 64) : ℕ → BitVec 64 → Option (BitVec 64)
  | 0, _ => none
  | rounds + 1, capacity =>
    if capacity < minimumSize then doubleCapacity minimumSize rounds (capacity * 2) else some capacity

/-- `link_section_reserve_data`. -/
def linkSectionReserveData (merged : LinkedSection) (minimumSize : BitVec 64) : Option LinkedSection :=
  if minimumSize ≤ merged.dataCapacity then some merged
  else
    (doubleCapacity minimumSize 65 (if merged.dataCapacity = 0 then 64 else merged.dataCapacity)).map
      fun capacity => { merged with dataCapacity := capacity }

/-- The `memset` of the padding and the `memcpy` of the raw data at `start`: nothing, when they would write
past the buffer. -/
def LinkedSection.copyRaw (merged : LinkedSection) (start : BitVec 64) (raw : List UInt8) :
    Option LinkedSection :=
  if start.toNat + raw.length ≤ merged.dataCapacity.toNat then
    let size := start + BitVec.ofNat 64 raw.length
    some { merged with
      data := merged.data.take start.toNat ++ List.replicate (start.toNat - merged.size.toNat) 0 ++ raw
      size
      virtualSize := if merged.virtualSize < size then size else merged.virtualSize }
  else none

/-- The two ways a merged section grows by a piece at `start`. -/
def LinkedSection.grow (merged : LinkedSection) (start : BitVec 64) (p : Piece) : Option LinkedSection :=
  if p.raw ≠ [] then
    (linkSectionReserveData merged (start + BitVec.ofNat 64 p.raw.length)).bind fun reserved =>
      reserved.copyRaw start p.raw
  else
    let stop := start + p.contributionSize
    some { merged with virtualSize := if merged.virtualSize < stop then stop else merged.virtualSize }

/-- The body of the loop of `link_resolution_merge_sections`: a piece is placed in its merged section. -/
def LinkedSection.place (merged : LinkedSection) (p : Piece) : Option LinkedSection :=
  let start := linkerAlignUp merged.virtualSize p.alignment
  (merged.grow start p).map fun grown =>
    { grown with
      alignment := if merged.alignment < p.alignment then p.alignment else merged.alignment
      contributions := merged.contributions ++
        [⟨p.objectIndex, p.sectionIndex, start, p.contributionSize, p.alignment⟩] }

/-- What a section brings, and to which merged section: nothing for one of unknown kind or a dead one. -/
def LinkedInputObject.piece (fallbackAlignment : BitVec 64) (input : LinkedInputObject)
    (objectIndex sectionIndex : ℕ) (s : LinkSection) : Option (Fin 7 × Piece) :=
  match linkSectionIndexFromKind s.kind with
  | none => none
  | some mergedIndex =>
    if input.sectionGcDead.getD sectionIndex false then none
    else some (mergedIndex,
      { objectIndex, sectionIndex
        alignment := linkSectionAlignment s fallbackAlignment
        contributionSize := linkEstimateSectionSize input.object sectionIndex
        raw := if s.kind = .bss then [] else s.rawData })

/-- Where a section went: `section_merged_indices` to `section_alignments` of its object. -/
structure SectionPlace where
  mergedIndex : Fin 7
  mergedOffset : BitVec 64
  mergedSize : BitVec 64
  alignment : BitVec 64
  deriving DecidableEq, Repr

/-- The merged sections so far and where the sections of the objects went. -/
structure LinkResolution where
  sections : Fin 7 → LinkedSection := fun _ => {}
  places : List (List (Option SectionPlace)) := []
  deriving DecidableEq

/-- The loop over the sections of one object. -/
def mergeObject (fallbackAlignment : BitVec 64) (input : LinkedInputObject) (objectIndex : ℕ) :
    List (LinkSection × ℕ) → (Fin 7 → LinkedSection) → Option ((Fin 7 → LinkedSection) × List (Option SectionPlace))
  | [], sections => some (sections, [])
  | (s, sectionIndex) :: rest, sections =>
    match input.piece fallbackAlignment objectIndex sectionIndex s with
    | none => do
      let (sections, places) ← mergeObject fallbackAlignment input objectIndex rest sections
      some (sections, none :: places)
    | some (mergedIndex, p) => do
      let merged ← (sections mergedIndex).place p
      let start := linkerAlignUp (sections mergedIndex).virtualSize p.alignment
      let (sections, places) ← mergeObject fallbackAlignment input objectIndex rest
        (Function.update sections mergedIndex merged)
      some (sections, some ⟨mergedIndex, start, p.contributionSize, p.alignment⟩ :: places)

/-- The loop over the objects. -/
def mergeObjects (fallbackAlignment : BitVec 64) :
    List (LinkedInputObject × ℕ) → LinkResolution → Option LinkResolution
  | [], resolution => some resolution
  | (input, objectIndex) :: rest, resolution => do
    let (sections, places) ← mergeObject fallbackAlignment input objectIndex input.object.sections.zipIdx
      resolution.sections
    mergeObjects fallbackAlignment rest { sections, places := resolution.places ++ [places] }

/-- `link_resolution_merge_sections`, on the sections `link_resolution_init_sections` leaves. There is no
result when a capacity cannot be reached or a copy would leave its buffer. -/
def linkResolutionMergeSections (inputs : List LinkedInputObject) (fallbackAlignment : BitVec 64) :
    Option LinkResolution :=
  mergeObjects fallbackAlignment inputs.zipIdx {}

end Mettle.Linker

import Mathlib

/-!
# The memory-safety runtime

The state of `runtime/safety.c` and `runtime/safety_provenance.inc` and the operations on it, under
the runtime's own names. Addresses and sizes (`uintptr_t`, `uint64_t`) are natural numbers; the only
arithmetic that can leave 64 bits, the address of a check and the byte addresses of a value access,
is reduced explicitly. Signed arguments are `BitVec 64`, read with `toInt`.

The shadow table is a three-level radix tree whose three indices are the digits of the granule
number; it is a function from granule numbers here, `0` where nothing was mapped. The descriptor
blocks are a function from region ids in the same way. Metadata allocation (`safety_map`) succeeds,
so the allocation pools of the value table are left out.

A call that ends in `safety_internal_failure` or in a reported failure does not return: it is an
`Except.error`.
-/

namespace Mettle.Runtime

/-- `METTLE_SAFETY_GRANULE`. -/
def safetyGranule : ℕ := 16

/-- `SAFETY_ADDRESS_BITS`: the three levels and the bits inside a granule. -/
def safetyAddressBits : ℕ := 12 + 16 + 16 + 4

/-- `SAFETY_ID_UNOWNED`. -/
def idUnowned : ℕ := 0

/-- `SAFETY_ID_CONTESTED`. -/
def idContested : ℕ := 1

/-- `SAFETY_ID_FIRST`. -/
def idFirst : ℕ := 2

/-- `SafetyState`. -/
inductive SafetyState where
  | freelist
  | live
  | dead
  deriving DecidableEq, Repr

/-- `SafetyRegion`, a region descriptor. -/
structure SafetyRegion where
  start : ℕ
  size : ℕ
  granules : ℕ
  state : SafetyState
  nextFree : ℕ
  identity : ℕ
  heap : Bool
  deriving DecidableEq, Repr

/-- A descriptor of a freshly mapped block. -/
def SafetyRegion.zero : SafetyRegion := ⟨0, 0, 0, .freelist, 0, 0, false⟩

/-- `SafetyFailure`, what a failed check reports. -/
structure SafetyFailure where
  headline : String
  line : ℕ
  offset : BitVec 64
  size : BitVec 64
  extent : ℕ
  haveExtent : Bool
  deriving DecidableEq, Repr

/-- The two ways the runtime stops the program. -/
inductive Trap where
  | internal (message : String)
  | report (failure : SafetyFailure)
  deriving DecidableEq, Repr

/-- The shadow registry: granule slots, descriptors, the free list of ids and the counters. -/
structure Registry where
  slots : ℕ → ℕ
  regions : ℕ → SafetyRegion
  regionNext : ℕ
  regionFree : ℕ
  generation : ℕ
  liveRegions : ℕ
  allocatorDepth : ℕ

/-- The registry of a program that has registered nothing. -/
def Registry.init : Registry where
  slots := fun _ => idUnowned
  regions := fun _ => SafetyRegion.zero
  regionNext := idFirst
  regionFree := 0
  generation := 0
  liveRegions := 0
  allocatorDepth := 0

namespace Registry

/-- Overwrite one descriptor. -/
def setRegion (s : Registry) (id : ℕ) (r : SafetyRegion) : Registry :=
  { s with regions := Function.update s.regions id r }

/-- Overwrite one slot. -/
def setSlot (s : Registry) (granule id : ℕ) : Registry :=
  { s with slots := Function.update s.slots granule id }

/-- `safety_region`: no descriptor beyond the last block. -/
def safetyRegion (s : Registry) (id : ℕ) : Option SafetyRegion :=
  if 4096 ≤ id >>> 12 then none else some (s.regions id)

/-- `safety_region_acquire`: pop the free list, or take the next id. `none` when the generations or
the blocks are used up. -/
def safetyRegionAcquire (s : Registry) (start size : ℕ) : Option (ℕ × Registry) :=
  if s.generation = 2 ^ 40 - 1 then none
  else
    let generation := s.generation + 1
    let s := { s with generation := generation }
    let id := s.regionFree
    if id ≠ 0 then
      let reused := s.regions id
      let s := { s with regionFree := reused.nextFree }
      some (id, s.setRegion id
        { start := start, size := size, granules := 0, state := .live, nextFree := 0,
          identity := generation <<< 24 ||| id, heap := true })
    else
      let id := s.regionNext
      if 4096 ≤ id >>> 12 then none
      else
        let s := { s with regionNext := id + 1 }
        some (id, s.setRegion id
          { start := start, size := size, granules := 0, state := .live, nextFree := 0,
            identity := generation <<< 24 ||| id, heap := true })

/-- `safety_region_recycle`: push an id on the free list. -/
def safetyRegionRecycle (s : Registry) (id : ℕ) : Registry :=
  { s.setRegion id
      { s.regions id with size := 0, granules := 0, state := .freelist, nextFree := s.regionFree }
    with regionFree := id }

/-- `safety_region_drop_granule`: a slot stopped holding `id`. -/
def safetyRegionDropGranule (s : Registry) (id : ℕ) : Registry :=
  match s.safetyRegion id with
  | none => s
  | some region =>
    if region.granules = 0 then s
    else
      let s := s.setRegion id { region with granules := region.granules - 1 }
      if region.granules - 1 = 0 ∧ region.state = .dead then s.safetyRegionRecycle id else s

/-- The slot of an address, `SAFETY_ID_UNOWNED` outside the supported range. -/
def slotAt (s : Registry) (address : ℕ) : ℕ :=
  if address >>> safetyAddressBits ≠ 0 then idUnowned else s.slots (address / safetyGranule)

/-- A live region that contains the address. -/
def holds (r : SafetyRegion) (address : ℕ) : Bool :=
  r.state = .live ∧ r.start ≤ address ∧ address - r.start < r.size

/-- One candidate of the contested scan: keep the newest live region around the address. -/
def scanStep (s : Registry) (address : ℕ) (best : ℕ × ℕ) (candidate : ℕ) : ℕ × ℕ :=
  match s.safetyRegion candidate with
  | none => best
  | some region =>
    if holds region address ∧ best.1 < region.identity then (region.identity, candidate) else best

/-- `safety_lookup`: the slot's id, or the newest live region of a contested granule. -/
def safetyLookup (s : Registry) (address : ℕ) : ℕ :=
  let id := s.slotAt address
  if id ≠ idContested then id
  else ((List.range' idFirst (s.regionNext - idFirst)).foldl (s.scanStep address)
    (0, idUnowned)).2

/-- One granule of `safety_claim_granules`; the second component counts the claimed slots. -/
def claimStep (id : ℕ) (acc : Registry × ℕ) (granule : ℕ) : Registry × ℕ :=
  let s := acc.1
  let current := s.slots granule
  if current = id then acc
  else if idFirst ≤ current then
    match s.safetyRegion current with
    | some { state := .live, .. } =>
      ((s.setSlot granule idContested).safetyRegionDropGranule current, acc.2)
    | _ => ((s.setSlot granule id).safetyRegionDropGranule current, acc.2 + 1)
  else if current = idContested then acc
  else (s.setSlot granule id, acc.2 + 1)

/-- The granules of a region, first to last. -/
def granulesOf (start size : ℕ) : List ℕ :=
  let first := start / safetyGranule
  let last := (start + size - 1) / safetyGranule
  List.range' first (last + 1 - first)

/-- `safety_claim_granules`. -/
def safetyClaimGranules (s : Registry) (start size id : ℕ) : Registry :=
  let acc := (granulesOf start size).foldl (claimStep id) (s, 0)
  match acc.1.safetyRegion id with
  | none => acc.1
  | some region => acc.1.setRegion id { region with granules := region.granules + acc.2 }

/-- The death of a live region, the part `safety_register_region` and `mettle_safety_unregister`
share: mark it dead and recycle it at once when it owns no slot. -/
def killRegion (s : Registry) (id : ℕ) : Registry :=
  let region := s.regions id
  let s := { s.setRegion id { region with state := .dead } with liveRegions := s.liveRegions - 1 }
  if region.granules = 0 then s.safetyRegionRecycle id else s

/-- The id a pointer can kill: the region the lookup finds, when it is live and starts there. -/
def liveAt (s : Registry) (start : ℕ) : Option ℕ :=
  let id := s.safetyLookup start
  if idFirst ≤ id then
    match s.safetyRegion id with
    | some region => if region.start = start ∧ region.state = .live then some id else none
    | none => none
  else none

/-- The registry half of `mettle_safety_unregister`, also the first step of a registration. -/
def killAt (s : Registry) (pointer : ℕ) : Registry :=
  match s.liveAt pointer with
  | some existing => s.killRegion existing
  | none => s

/-- `address_limit` of `safety_register_region`. -/
def addressLimit : ℕ := 2 ^ safetyAddressBits - 1

/-- `safety_register_region`. Besides the new state it yields the id it acquired, `none` for the
calls that register nothing. -/
def safetyRegisterRegion (s : Registry) (pointer size : ℕ) (heap : Bool) :
    Except Trap (Registry × Option ℕ) :=
  if pointer = 0 ∨ size = 0 then .ok (s, none)
  else if addressLimit < pointer ∨ addressLimit - pointer < size - 1 then
    .error (.internal
      "Fatal error: memory registration exceeds the supported address range")
  else
    match (s.killAt pointer).safetyRegionAcquire pointer size with
    | none => .error (.internal "Fatal error: unable to allocate memory safety metadata")
    | some (id, s) =>
      let s := s.safetyClaimGranules pointer size id
      let s := s.setRegion id { s.regions id with heap := heap }
      .ok ({ s with liveRegions := s.liveRegions + 1 }, some id)

/-- `safety_snapshot`: the descriptor the lookup finds, zeroed when there is none. -/
def safetySnapshot (s : Registry) (address : ℕ) : SafetyRegion :=
  let id := s.safetyLookup address
  if idFirst ≤ id then (s.safetyRegion id).getD .zero else .zero

/-- `base + offset` in `uintptr_t`. -/
def checkedAddress (base : ℕ) (offset : BitVec 64) : ℕ := (base + offset.toNat) % 2 ^ 64

/-- The test every check makes before it trusts `base + offset`. -/
def wrapped (base : ℕ) (offset : BitVec 64) : Bool :=
  if 0 ≤ offset.toInt then checkedAddress base offset < base
  else base < checkedAddress base offset

/-- `safety_check_failed`: report, unless an allocator is running or nothing is known. -/
def safetyCheckFailed (s : Registry) (base : ℕ) (offset size : BitVec 64) (line : ℕ)
    (region : Option SafetyRegion) : Except Trap Unit :=
  if s.allocatorDepth ≠ 0 then .ok ()
  else if base = 0 then
    .error (.report ⟨"null pointer dereference", line, offset, size, 0, false⟩)
  else
    match region with
    | none => .ok ()
    | some r =>
      match r.state with
      | .freelist => .ok ()
      | .dead => .error (.report
          ⟨"use of memory after it was freed", line, offset, size, r.size, true⟩)
      | .live => .error (.report
          ⟨"memory access outside its allocation", line, offset, size, r.size, true⟩)

/-- `mettle_safety_check`. -/
def mettleSafetyCheck (s : Registry) (base : ℕ) (offset size : BitVec 64) (line : ℕ) :
    Except Trap Unit :=
  if size.toInt ≤ 0 then .ok ()
  else
    let address := checkedAddress base offset
    let region := s.safetySnapshot base
    let width := size.toNat
    match region.state with
    | .freelist => if base = 0 then s.safetyCheckFailed base offset size line none else .ok ()
    | .live =>
      if ¬ wrapped base offset ∧ width ≤ region.size ∧ region.start ≤ address ∧
          address - region.start ≤ region.size - width then .ok ()
      else s.safetyCheckFailed base offset size line (some region)
    | .dead => s.safetyCheckFailed base offset size line (some region)

/-- `mettle_safety_identity`. -/
def mettleSafetyIdentity (s : Registry) (pointer : ℕ) : ℕ :=
  if pointer = 0 then 0
  else
    let region := s.safetySnapshot pointer
    if region.state = .freelist then 0 else region.identity

/-- An identity is a generation above 24 bits of region id. -/
def identityIds : ℕ := 2 ^ 24

/-- `safety_identity_snapshot`: the descriptor with this identity; a recycled one reads as dead. -/
def safetyIdentitySnapshot (s : Registry) (identity : ℕ) : SafetyRegion :=
  let result := ((s.safetyRegion (identity % identityIds)).filter (·.identity == identity)).getD .zero
  if result.state = .freelist then { result with state := .dead } else result

/-- `mettle_safety_span_identity`, a non-negative `int64_t`. -/
def mettleSafetySpanIdentity (s : Registry) (base identity : ℕ) : ℕ :=
  if identity = 0 then 0
  else
    let region := s.safetyIdentitySnapshot identity
    if base = 0 ∨ region.state ≠ .live ∨ base < region.start ∨
        region.size ≤ base - region.start then 0
    else region.size - (base - region.start)

/-- `safety_owner_identity`. -/
def safetyOwnerIdentity (s : Registry) (address : ℕ) : ℕ :=
  let id := s.safetyLookup address
  if idFirst ≤ id then ((s.safetyRegion id).map (·.identity)).getD 0 else 0

end Registry

/-! ## Pointer-identity metadata -/

/-- `SafetyValue`, the metadata of one byte. -/
structure SafetyValue where
  address : ℕ
  value : ℕ
  identity : ℕ
  owner : ℕ
  deriving DecidableEq, Repr

/-- `SAFETY_VALUE_BUCKETS`. -/
def safetyValueBuckets : ℕ := 4096

/-- `safety_value_bucket`. -/
def safetyValueBucket (address : ℕ) : ℕ := (address >>> 3 ^^^ address >>> 17) % safetyValueBuckets

/-- The whole runtime: the registry, the chains of the value table and their entry count. -/
structure Safety where
  registry : Registry
  values : ℕ → List SafetyValue
  valueCount : ℕ

/-- The runtime at program start. -/
def Safety.init : Safety := ⟨Registry.init, fun _ => [], 0⟩

/-- `mettle_safety_merge_identity`. -/
def mettleSafetyMergeIdentity (a b : ℕ) : ℕ :=
  if a = 0 then b else if b = 0 ∨ a = b then a else 2 ^ 64 - 1

namespace Safety

/-- `safety_value_find`: walk the chain of the address's bucket. -/
def safetyValueFind (s : Safety) (address : ℕ) : Option SafetyValue :=
  (s.values (safetyValueBucket address)).find? (fun e => e.address == address)

/-- Write the metadata of the first entry of the chain with this address. -/
def updateEntry (address value identity owner : ℕ) : List SafetyValue → List SafetyValue
  | [] => []
  | e :: rest =>
    if e.address = address then { e with value := value, identity := identity, owner := owner } :: rest
    else e :: updateEntry address value identity owner rest

/-- `safety_value_set`: update the entry of a byte, or push a new one unless the identity is `0`. -/
def safetyValueSet (s : Safety) (address value identity : ℕ) : Safety :=
  let bucket := safetyValueBucket address
  let owner := s.registry.safetyOwnerIdentity address
  match s.safetyValueFind address with
  | some _ =>
    { s with
      values := Function.update s.values bucket
        (updateEntry address value identity owner (s.values bucket)) }
  | none =>
    if identity = 0 then s
    else
      { s with
        values := Function.update s.values bucket
          (⟨address, value, identity, owner⟩ :: s.values bucket)
        valueCount := s.valueCount + 1 }

/-- One byte of `mettle_safety_value_load`. -/
def loadStep (s : Safety) (slot identity i : ℕ) : ℕ :=
  let address := (slot + i) % 2 ^ 64
  match s.safetyValueFind address with
  | some entry =>
    if entry.owner = s.registry.safetyOwnerIdentity address then
      mettleSafetyMergeIdentity identity entry.identity
    else identity
  | none => identity

/-- `mettle_safety_value_load`. -/
def mettleSafetyValueLoad (s : Safety) (slot size : ℕ) : ℕ :=
  (List.range (min size 8)).foldl (s.loadStep slot) 0

/-- `mettle_safety_value_store`. -/
def mettleSafetyValueStore (s : Safety) (slot value identity size : ℕ) : Safety :=
  (List.range (min size 8)).foldl
    (fun s i => s.safetyValueSet ((slot + i) % 2 ^ 64) (value >>> (8 * i) % 256) identity) s

/-- An entry inside `[address, address + size)`. -/
def overlaps (address size : ℕ) (e : SafetyValue) : Bool :=
  address ≤ e.address ∧ e.address - address < size

/-- `safety_values_clear_locked`: unlink the entries of a range from every chain. -/
def safetyValuesClearLocked (s : Safety) (address size : ℕ) : Safety :=
  if s.valueCount = 0 then s
  else
    { s with
      values := fun bucket => (s.values bucket).filter (fun e => ¬ overlaps address size e)
      valueCount := s.valueCount -
        ((List.range safetyValueBuckets).map
          (fun bucket => (s.values bucket).countP (overlaps address size))).sum }

/-- `safety_values_reown`: entries stamped with the old identity follow an in-place resize. -/
def safetyValuesReown (s : Safety) (pointer size oldIdentity : ℕ) : Safety :=
  let owner := s.registry.safetyOwnerIdentity pointer
  { s with
    values := fun bucket => (s.values bucket).map (fun e =>
      if e.owner = oldIdentity ∧ overlaps pointer size e then { e with owner := owner } else e) }

/-- The entries `mettle_safety_value_copy` snapshots, in table order. -/
def copySnapshot (s : Safety) (source size : ℕ) : List SafetyValue :=
  (List.range safetyValueBuckets).flatMap (fun bucket => (s.values bucket).filter (fun e =>
    e.identity ≠ 0 ∧ overlaps source size e ∧
      e.owner = s.registry.safetyOwnerIdentity e.address))

/-- `mettle_safety_value_copy`: snapshot the source, clear the destination, set the copies. -/
def mettleSafetyValueCopy (s : Safety) (destination source size : ℕ) : Except Trap Safety :=
  if size = 0 ∨ destination = source then .ok s
  else if 2 ^ 64 - 1 - destination < size - 1 ∨ 2 ^ 64 - 1 - source < size - 1 then
    .error (.internal "Fatal error: pointer metadata copy range overflow")
  else
    let copy := s.copySnapshot source size
    let s := s.safetyValuesClearLocked destination size
    .ok (copy.foldl
      (fun s e => s.safetyValueSet (destination + (e.address - source)) e.value e.identity) s)

/-- `mettle_safety_value_clear`. -/
def mettleSafetyValueClear (s : Safety) (destination size : ℕ) : Safety :=
  if size = 0 then s else s.safetyValuesClearLocked destination size

/-! ## The entry points of the registry -/

/-- `mettle_safety_register` and `mettle_safety_register_static`, by their `heap` flag. -/
def registerRegion (s : Safety) (pointer size : ℕ) (heap : Bool) :
    Except Trap (Safety × Option ℕ) :=
  match s.registry.safetyRegisterRegion pointer size heap with
  | .error t => .error t
  | .ok (r, id) => .ok ({ s with registry := r }, id)

/-- `mettle_safety_register`. -/
def mettleSafetyRegister (s : Safety) (pointer size : ℕ) : Except Trap (Safety × Option ℕ) :=
  s.registerRegion pointer size true

/-- `mettle_safety_register_static`. -/
def mettleSafetyRegisterStatic (s : Safety) (pointer size : ℕ) :
    Except Trap (Safety × Option ℕ) :=
  s.registerRegion pointer size false

/-- `mettle_safety_unregister`: the region dies and the metadata stored in it goes. -/
def mettleSafetyUnregister (s : Safety) (pointer : ℕ) : Safety :=
  if pointer = 0 then s
  else
    match s.registry.liveAt pointer with
    | none => s
    | some id =>
      let region := s.registry.regions id
      let s := s.safetyValuesClearLocked region.start region.size
      { s with registry := s.registry.killRegion id }

/-- The metadata half of `mettle_safety_reregister`: an in-place resize re-stamps, a move copies. -/
def reregisterValues (s : Safety) (oldPointer newPointer size oldIdentity oldSize : ℕ) :
    Except Trap Safety :=
  if oldPointer = newPointer ∧ newPointer ≠ 0 then
    .ok (s.safetyValuesReown newPointer size oldIdentity)
  else if oldPointer ≠ 0 ∧ newPointer ≠ 0 ∧ 0 < oldSize then
    s.mettleSafetyValueCopy newPointer oldPointer (if oldSize < size then oldSize else size)
  else .ok s

/-- `mettle_safety_reregister`. -/
def mettleSafetyReregister (s : Safety) (oldPointer newPointer size : ℕ) :
    Except Trap (Safety × Option ℕ) :=
  if newPointer = 0 ∧ size ≠ 0 then .ok (s, none)
  else
    let oldIdentity := s.registry.mettleSafetyIdentity oldPointer
    let oldSize :=
      if oldIdentity ≠ 0 then s.registry.mettleSafetySpanIdentity oldPointer oldIdentity else 0
    match s.mettleSafetyRegister newPointer size with
    | .error t => .error t
    | .ok (s, id) =>
      match s.reregisterValues oldPointer newPointer size oldIdentity oldSize with
      | .error t => .error t
      | .ok s =>
        if oldPointer ≠ 0 ∧ oldPointer ≠ newPointer then .ok (s.mettleSafetyUnregister oldPointer, id)
        else .ok (s, id)

end Safety

end Mettle.Runtime

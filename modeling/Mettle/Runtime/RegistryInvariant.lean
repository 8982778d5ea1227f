import Mettle.Lib.Counting
import Mettle.Runtime.Safety

/-!
# The invariant of the shadow registry

What holds of the registry between two calls. `Shape` bounds the counters, describes the intrusive
free list and the identities; `Counts` says that a descriptor's `granules` field is the number of
slots holding its id, up to the claims a running `safety_claim_granules` has not booked yet; `Owns`
says that a granule of a live region holds the region's id or is contested.
-/

open List Function

namespace Mettle.Runtime

open Mettle.Lib

namespace Registry

/-- The granules of the supported address range. -/
def shadowGranules : ℕ := 2 ^ (safetyAddressBits - 4)

/-- The number of shadow slots holding an id. -/
def slotCount (s : Registry) (id : ℕ) : ℕ := countAt (Finset.range shadowGranules) s.slots id

/-- The ids of the intrusive free list that starts at `head`. -/
def FreeChain (regions : ℕ → SafetyRegion) : ℕ → List ℕ → Prop
  | head, [] => head = 0
  | head, id :: rest => head = id ∧ FreeChain regions (regions id).nextFree rest

/-- An id that was handed out at least once. -/
def Used (s : Registry) (id : ℕ) : Prop := idFirst ≤ id ∧ id < s.regionNext

/-- The generation of a region, the high bits of its identity. -/
def generationOf (r : SafetyRegion) : ℕ := r.identity / identityIds

/-- What every descriptor satisfies on its own. -/
structure Descriptor (r : SafetyRegion) : Prop where
  free_granules : r.state = .freelist → r.granules = 0
  live_size : r.state = .live → 0 < r.size
  live_end : r.state = .live → r.start + r.size ≤ 2 ^ safetyAddressBits

/-- The identities of the used ids: the id below a generation that no other used id has. -/
structure Identities (s : Registry) : Prop where
  id_eq : ∀ id, s.Used id → (s.regions id).identity % identityIds = id
  pos : ∀ id, s.Used id → 0 < generationOf (s.regions id)
  le : ∀ id, s.Used id → generationOf (s.regions id) ≤ s.generation
  inj : ∀ id id', s.Used id → s.Used id' →
    generationOf (s.regions id) = generationOf (s.regions id') → id = id'

/-- The free list runs once through exactly the used ids in the free state. -/
def FreeList (s : Registry) (l : List ℕ) : Prop :=
  FreeChain s.regions s.regionFree l ∧ l.Nodup ∧
    ∀ id, id ∈ l ↔ s.Used id ∧ (s.regions id).state = .freelist

/-- Counters, descriptors and free list fit together. -/
structure Shape (s : Registry) : Prop where
  next_pos : idFirst ≤ s.regionNext
  next_le : s.regionNext ≤ identityIds
  slots_lt : ∀ g, s.slots g < s.regionNext
  slots_out : ∀ g, shadowGranules ≤ g → s.slots g = idUnowned
  unused : ∀ id, ¬ s.Used id → s.regions id = .zero
  free : ∃ l, FreeList s l
  descriptors : ∀ id, Descriptor (s.regions id)
  identities : Identities s

/-- Every descriptor counts its slots; `pending` slots of the id being claimed are not booked yet. -/
def Counts (s : Registry) (claiming pending : ℕ) : Prop :=
  ∀ id, idFirst ≤ id →
    s.slotCount id = (s.regions id).granules + if id = claiming then pending else 0

/-- A granule that meets the bytes of a region. -/
def Touches (r : SafetyRegion) (g : ℕ) : Prop := g ∈ granulesOf r.start r.size

/-- Every granule of a live region holds its id or is contested; `claiming` is exempt. -/
def Owns (s : Registry) (claiming : ℕ) : Prop :=
  ∀ id, id ≠ claiming → (s.regions id).state = .live →
    ∀ g, Touches (s.regions id) g → s.slots g = id ∨ s.slots g = idContested

/-- The invariant between two calls. -/
structure Inv (s : Registry) : Prop where
  shape : Shape s
  counts : Counts s idUnowned 0
  owns : Owns s idUnowned

/-! ## Small facts -/

variable {s : Registry} {id g : ℕ}

@[simp] theorem setRegion_slots (r : SafetyRegion) : (s.setRegion id r).slots = s.slots := rfl

@[simp] theorem setRegion_regions (r : SafetyRegion) :
    (s.setRegion id r).regions = Function.update s.regions id r := rfl

@[simp] theorem setSlot_regions (v : ℕ) : (s.setSlot g v).regions = s.regions := rfl

@[simp] theorem setSlot_slots (v : ℕ) : (s.setSlot g v).slots = Function.update s.slots g v := rfl

variable {t : Registry} {r : SafetyRegion} {start size v claiming k pointer : ℕ} {heap : Bool}

/-- A slot count only looks at the slots. -/
theorem slotCount_congr (h : t.slots = s.slots) : t.slotCount id = s.slotCount id := by
  rw [slotCount, slotCount, h]

/-- A write to a slot in range moves one slot between the counts. -/
theorem slotCount_setSlot (s : Registry) (hg : g < shadowGranules) (v id : ℕ) :
    (s.setSlot g v).slotCount id + (if s.slots g = id then 1 else 0) = s.slotCount id + (if v = id then 1 else 0) :=
  countAt_update (Finset.mem_range.mpr hg) s.slots v id

/-- The free list ignores descriptors that are not on it. -/
theorem FreeChain.update {regions : ℕ → SafetyRegion} : ∀ {l : List ℕ} {head : ℕ}, FreeChain regions head l → id ∉ l →
      FreeChain (Function.update regions id r) head l
  | [], _, h, _ => h
  | id' :: rest, _, ⟨hhead, hrest⟩, hid => by
    rw [mem_cons, not_or] at hid
    refine ⟨hhead, ?_⟩
    rw [update_of_ne (Ne.symm hid.1)]
    exact FreeChain.update hrest hid.2

/-- The granules that a range touches. -/
theorem mem_granulesOf : g ∈ granulesOf start size ↔
      start / safetyGranule ≤ g ∧ g ≤ (start + size - 1) / safetyGranule := by
  simp only [granulesOf, mem_range'_1, safetyGranule]
  omega

/-- Both halves of an identity can be read back. -/
theorem identity_eq (generation : ℕ) (hid : id < identityIds) :
    generation <<< 24 ||| id = generation * identityIds + id := by
  rw [← Nat.shiftLeft_add_eq_or_of_lt hid, Nat.shiftLeft_eq, identityIds]

theorem Used.lt_ids (hs : Shape s) (h : s.Used id) : id < identityIds :=
  lt_of_lt_of_le h.2 hs.next_le

/-- An id in range has a descriptor. -/
theorem safetyRegion_eq_some (h : id < identityIds) : s.safetyRegion id = some (s.regions id) := by
  have hblock : ¬ 4096 ≤ id >>> 12 := by
    simp only [identityIds] at h
    omega
  rw [safetyRegion, if_neg hblock]

/-- Only used ids can be live or dead. -/
theorem Shape.used_of_state (hs : Shape s) (h : (s.regions id).state ≠ .freelist) : s.Used id := by
  by_contra hid
  rw [hs.unused id hid] at h
  exact h rfl

/-- A live id is used. -/
theorem Shape.used_of_live (hs : Shape s) (h : (s.regions id).state = .live) : s.Used id :=
  hs.used_of_state (by rw [h]; nofun)

/-- An id in a slot is used. -/
theorem Shape.used_of_slot (hs : Shape s) (h : idFirst ≤ s.slots g) : s.Used (s.slots g) :=
  ⟨h, hs.slots_lt g⟩

/-- A slot that holds an id is in range. -/
theorem Shape.lt_of_slot (hs : Shape s) (h : s.slots g ≠ idUnowned) : g < shadowGranules := by
  by_contra hg
  exact h (hs.slots_out g (Nat.le_of_not_lt hg))

/-- The granules of a live region are in range. -/
theorem touches_lt (hr : Descriptor r) (h : r.state = .live) (hg : Touches r g) : g < shadowGranules := by
  have hend := hr.live_end h
  have hlast := (mem_granulesOf.mp hg).2
  simp only [safetyAddressBits, safetyGranule, shadowGranules] at *
  omega

/-! ## What keeps the shape -/

/-- Identities do not depend on the other fields of the descriptors. -/
theorem Identities.congr (hs : Identities s) (hnext : t.regionNext = s.regionNext)
    (hgen : t.generation = s.generation) (hident : ∀ id, (t.regions id).identity = (s.regions id).identity) :
    Identities t := by
  have hused : ∀ id, t.Used id ↔ s.Used id := fun id => by rw [Used, Used, hnext]
  have hgenOf : ∀ id, generationOf (t.regions id) = generationOf (s.regions id) :=
    fun id => by rw [generationOf, hident, generationOf]
  refine ⟨?_, ?_, ?_, ?_⟩ <;> simp only [hused, hident, hgenOf, hgen]
  · exact hs.id_eq
  · exact hs.pos
  · exact hs.le
  · exact hs.inj

/-- An overwritten descriptor that keeps its identity keeps all identities. -/
theorem identity_setRegion (hident : r.identity = (s.regions id).identity) (id' : ℕ) :
    ((s.setRegion id r).regions id').identity = (s.regions id').identity := by
  by_cases h : id' = id
  · subst h
    rw [setRegion_regions, update_self, hident]
  · rw [setRegion_regions, update_of_ne h]

/-- Unused descriptors survive a write to a used one. -/
theorem Shape.unused_setRegion (hs : Shape s) (hused : s.Used id) :
    ∀ id', ¬ s.Used id' → (s.setRegion id r).regions id' = .zero := by
  intro id' hid'
  have hne : id' ≠ id := by rintro rfl; exact hid' hused
  rw [setRegion_regions, update_of_ne hne]
  exact hs.unused id' hid'

/-- A descriptor that stays off the free list and keeps its identity may change. -/
theorem Shape.setRegion (hs : Shape s) (hold : (s.regions id).state ≠ .freelist) (hnew : r.state ≠ .freelist)
    (hident : r.identity = (s.regions id).identity) (hr : Descriptor r) : Shape (s.setRegion id r) := by
  have hused := hs.used_of_state hold
  obtain ⟨l, hchain, hnodup, hmem⟩ := hs.free
  have hnotin : id ∉ l := fun h => hold ((hmem id).mp h).2
  refine ⟨hs.next_pos, hs.next_le, hs.slots_lt, hs.slots_out, hs.unused_setRegion hused,
    ⟨l, hchain.update hnotin, hnodup, ?_⟩, ?_,
    hs.identities.congr rfl rfl (identity_setRegion hident)⟩
  · intro id'
    by_cases h : id' = id
    · subst h
      simp [hnotin, hnew]
    · rw [setRegion_regions, update_of_ne h]
      exact hmem id'
  · exact (forall_update_iff _ (fun _ r => Descriptor r)).mpr ⟨hr, fun id' _ => hs.descriptors id'⟩

/-- A used id off the free list can be pushed on it. -/
theorem Shape.recycle (hs : Shape s) (hold : (s.regions id).state ≠ .freelist) :
    Shape (s.safetyRegionRecycle id) := by
  have hused := hs.used_of_state hold
  obtain ⟨l, hchain, hnodup, hmem⟩ := hs.free
  have hnotin : id ∉ l := fun h => hold ((hmem id).mp h).2
  refine ⟨hs.next_pos, hs.next_le, hs.slots_lt, hs.slots_out, hs.unused_setRegion hused,
    ⟨id :: l, ⟨rfl, ?_⟩, nodup_cons.mpr ⟨hnotin, hnodup⟩, ?_⟩, ?_,
    hs.identities.congr rfl rfl (identity_setRegion rfl)⟩
  · change FreeChain _ (Function.update s.regions id _ id).nextFree l
    rw [update_self]
    exact hchain.update hnotin
  · intro id'
    change _ ↔ s.Used id' ∧ (Function.update s.regions id _ id').state = .freelist
    by_cases h : id' = id
    · subst h
      simp [hused]
    · rw [update_of_ne h, mem_cons, ← hmem id']
      simp [h]
  · exact (forall_update_iff _ (fun _ r => Descriptor r)).mpr
      ⟨⟨fun _ => rfl, nofun, nofun⟩, fun id' _ => hs.descriptors id'⟩

/-- A slot in range may take any id that was handed out. -/
theorem Shape.setSlot (hs : Shape s) (hg : g < shadowGranules) (hv : v < s.regionNext) : Shape (s.setSlot g v) := by
  refine ⟨hs.next_pos, hs.next_le, ?_, ?_, hs.unused, hs.free, hs.descriptors,
    hs.identities.congr rfl rfl fun _ => rfl⟩
  · exact (forall_update_iff _ (fun _ v => v < s.regionNext)).mpr ⟨hv, fun g' _ => hs.slots_lt g'⟩
  · intro g' hg'
    have hne : g' ≠ g := by omega
    rw [setSlot_slots, update_of_ne hne]
    exact hs.slots_out g' hg'

/-- The count of live regions is not part of the shape. -/
theorem Shape.withLive (hs : Shape s) (n : ℕ) : Shape { s with liveRegions := n } :=
  ⟨hs.next_pos, hs.next_le, hs.slots_lt, hs.slots_out, hs.unused, hs.free, hs.descriptors,
    hs.identities.congr rfl rfl fun _ => rfl⟩

/-! ## Deaths and dropped granules -/

/-- The counts follow when neither slots nor `granules` change. -/
theorem Counts.congr {pending : ℕ} (hs : Counts s claiming pending) (hslots : t.slots = s.slots)
    (hgranules : ∀ id, (t.regions id).granules = (s.regions id).granules) : Counts t claiming pending := by
  intro id hid
  rw [slotCount_congr hslots, hgranules]
  exact hs id hid

/-- `t` has no live region that `s` lacks. -/
def LiveSub (t s : Registry) : Prop :=
  ∀ id, (t.regions id).state = .live → (s.regions id).state = .live ∧
    (t.regions id).start = (s.regions id).start ∧ (t.regions id).size = (s.regions id).size

/-- Ownership follows when no slot changes and no region becomes live. -/
theorem Owns.congr (hs : Owns s claiming) (hslots : t.slots = s.slots) (hlive : LiveSub t s) : Owns t claiming := by
  intro id hid hstate g hg
  obtain ⟨hstate', hstart, hsize⟩ := hlive id hstate
  rw [Touches, hstart, hsize] at hg
  rw [hslots]
  exact hs id hid hstate' g hg

/-- A write that leaves the region dead or with its extent adds no live region. -/
theorem liveSub_setRegion
    (h : r.state = .live → (s.regions id).state = .live ∧ r.start = (s.regions id).start ∧ r.size = (s.regions id).size) :
    LiveSub (s.setRegion id r) s := by
  intro id' hstate
  rw [setRegion_regions] at hstate ⊢
  by_cases hid : id' = id
  · subst hid
    rw [update_self] at hstate ⊢
    exact h hstate
  · rw [update_of_ne hid] at hstate ⊢
    exact ⟨hstate, rfl, rfl⟩

/-- Recycling adds no live region. -/
theorem liveSub_recycle : LiveSub (s.safetyRegionRecycle id) s := liveSub_setRegion nofun

theorem LiveSub.trans {u : Registry} (h₁ : LiveSub u t) (h₂ : LiveSub t s) : LiveSub u s := by
  intro id hstate
  obtain ⟨hstate, hstart, hsize⟩ := h₁ id hstate
  obtain ⟨hstate', hstart', hsize'⟩ := h₂ id hstate
  exact ⟨hstate', hstart.trans hstart', hsize.trans hsize'⟩

/-- `killRegion` keeps the invariant. -/
theorem Inv.killRegion (hs : Inv s) (hlive : (s.regions id).state = .live) : Inv (s.killRegion id) := by
  have hold : (s.regions id).state ≠ .freelist := by rw [hlive]; nofun
  have hdead : Shape (s.setRegion id { s.regions id with state := .dead }) :=
    hs.shape.setRegion hold nofun rfl ⟨nofun, nofun, nofun⟩
  have hshape := hdead.withLive (s.liveRegions - 1)
  have hkilled : LiveSub { s.setRegion id { s.regions id with state := .dead } with
      liveRegions := s.liveRegions - 1 } s := liveSub_setRegion nofun
  rw [Registry.killRegion]
  by_cases hzero : (s.regions id).granules = 0
  · rw [if_pos hzero]
    refine ⟨hshape.recycle (by simp), hs.counts.congr rfl ?_, hs.owns.congr rfl (liveSub_recycle.trans hkilled)⟩
    intro id'
    by_cases h : id' = id
    · subst h
      simp [safetyRegionRecycle, hzero]
    · simp [safetyRegionRecycle, update_of_ne h]
  · rw [if_neg hzero]
    refine ⟨hshape, hs.counts.congr rfl ?_, hs.owns.congr rfl hkilled⟩
    intro id'
    by_cases h : id' = id
    · subst h
      simp
    · simp [update_of_ne h]

/-- What `safety_region_drop_granule` does to a descriptor that counts at least one slot. -/
structure Dropped (s t : Registry) (id : ℕ) : Prop where
  shape : Shape t
  slots : t.slots = s.slots
  others : ∀ id', id' ≠ id → t.regions id' = s.regions id'
  granules : (t.regions id).granules + 1 = (s.regions id).granules
  live : LiveSub t s
  generation : t.generation = s.generation
  depth : t.allocatorDepth = s.allocatorDepth

/-- Dropping a granule of a region. -/
theorem Shape.dropGranule (hs : Shape s) (hpos : 0 < (s.regions id).granules) :
    Dropped s (s.safetyRegionDropGranule id) id := by
  have hold : (s.regions id).state ≠ .freelist := by
    intro h
    rw [(hs.descriptors id).free_granules h] at hpos
    exact absurd hpos (lt_irrefl 0)
  have hlt := (hs.used_of_state hold).lt_ids hs
  have hdesc := hs.descriptors id
  have hshape : Shape (s.setRegion id { s.regions id with granules := (s.regions id).granules - 1 }) :=
    hs.setRegion hold hold rfl ⟨fun h => absurd h hold, hdesc.live_size, hdesc.live_end⟩
  have hkeep : LiveSub (s.setRegion id { s.regions id with granules := (s.regions id).granules - 1 }) s :=
    liveSub_setRegion fun h => ⟨h, rfl, rfl⟩
  rw [safetyRegionDropGranule, safetyRegion_eq_some hlt]
  simp only [if_neg (Nat.ne_of_gt hpos)]
  by_cases hlast : (s.regions id).granules - 1 = 0 ∧ (s.regions id).state = .dead
  · rw [if_pos hlast]
    refine ⟨hshape.recycle (by simpa using hold), rfl, ?_, ?_, liveSub_recycle.trans hkeep, rfl, rfl⟩
    · intro id' h
      simp [safetyRegionRecycle, update_of_ne h]
    · simp only [safetyRegionRecycle, setRegion_regions, update_self]
      omega
  · rw [if_neg hlast]
    refine ⟨hshape, rfl, ?_, ?_, hkeep, rfl, rfl⟩
    · intro id' h
      simp [update_of_ne h]
    · simp only [setRegion_regions, update_self]
      omega

/-! ## Claiming granules -/

/-- The registry inside `safety_claim_granules`: `id` is live and `pending` slots hold it. -/
structure Claiming (s : Registry) (id pending : ℕ) : Prop where
  shape : Shape s
  counts : Counts s id pending
  owns : Owns s id
  live : (s.regions id).state = .live

/-- What one granule of the claim leaves alone. -/
structure ClaimFrame (s t : Registry) (id g : ℕ) : Prop where
  region : t.regions id = s.regions id
  claimed : t.slots g = id ∨ t.slots g = idContested
  others : ∀ g', g' ≠ g → t.slots g' = s.slots g'
  generation : t.generation = s.generation
  depth : t.allocatorDepth = s.allocatorDepth

/-- Taking a granule away from another region keeps the claim invariant. -/
theorem Claiming.take (hs : Claiming s id k) (hne : s.slots g ≠ id) (hfirst : idFirst ≤ s.slots g)
    (hv : v = idContested ∨ v = id ∧ (s.regions (s.slots g)).state ≠ .live) :
    Claiming ((s.setSlot g v).safetyRegionDropGranule (s.slots g)) id (k + if v = id then 1 else 0) ∧
      ClaimFrame s ((s.setSlot g v).safetyRegionDropGranule (s.slots g)) id g := by
  have hused := hs.shape.used_of_live hs.live
  have hg : g < shadowGranules := hs.shape.lt_of_slot (Nat.ne_of_gt (Nat.lt_of_lt_of_le (by decide) hfirst))
  have hvlt : v < s.regionNext := by
    rcases hv with rfl | ⟨rfl, -⟩
    · exact lt_of_lt_of_le (by decide) hs.shape.next_pos
    · exact hused.2
  -- the slot itself witnesses that its owner counts at least one granule
  have hpos : 0 < (s.regions (s.slots g)).granules := by
    have hcount := hs.counts (s.slots g) hfirst
    rw [if_neg hne, Nat.add_zero] at hcount
    rw [← hcount]
    exact countAt_pos (Finset.mem_range.mpr hg) rfl
  have hdrop := (hs.shape.setSlot hg hvlt).dropGranule hpos
  set t := (s.setSlot g v).safetyRegionDropGranule (s.slots g) with ht
  have hregion : t.regions id = s.regions id := hdrop.others id (Ne.symm hne)
  have hself : t.slots g = v := by rw [hdrop.slots, setSlot_slots, update_self]
  have hothers : ∀ g', g' ≠ g → t.slots g' = s.slots g' := by
    intro g' h
    rw [hdrop.slots, setSlot_slots, update_of_ne h]
  refine ⟨⟨hdrop.shape, ?_, ?_, by rw [hregion, hs.live]⟩, hregion, ?_, hothers, hdrop.generation, hdrop.depth⟩
  · intro id' hid'
    have hmove := slotCount_setSlot s hg v id'
    have hcount := hs.counts id' hid'
    rw [slotCount_congr hdrop.slots]
    have hcontested : idContested ≠ id' := Nat.ne_of_lt (Nat.lt_of_lt_of_le (by decide) hid')
    by_cases hcur : s.slots g = id'
    · have hgran := hdrop.granules
      subst hcur
      rw [setSlot_regions] at hgran
      have hv' : v ≠ s.slots g := by omega
      rw [if_pos rfl, if_neg hv'] at hmove
      rw [if_neg hne] at hcount ⊢
      omega
    · rw [hdrop.others id' (Ne.symm hcur), setSlot_regions]
      rw [if_neg hcur] at hmove
      by_cases hclaim : id' = id
      · subst hclaim
        rw [if_pos rfl] at hcount ⊢
        omega
      · rw [if_neg hclaim] at hcount ⊢
        have hv' : v ≠ id' := by omega
        rw [if_neg hv'] at hmove
        omega
  · intro id' hid' hstate g' hg'
    obtain ⟨hstate', hstart, hsize⟩ := hdrop.live id' hstate
    rw [Touches, hstart, hsize] at hg'
    have hold := hs.owns id' hid' hstate' g' hg'
    by_cases h : g' = g
    · subst h
      rw [hself]
      rcases hv with rfl | ⟨rfl, hdead⟩
      · exact .inr rfl
      · -- the slot belongs to a dead region, so no live region meets this granule
        rcases hold with hold | hold
        · rw [← hold] at hstate'
          exact absurd hstate' hdead
        · rw [hold] at hfirst
          exact absurd hfirst (by decide)
    · rw [hothers g' h]
      exact hold
  · rw [hself]
    rcases hv with rfl | ⟨rfl, -⟩
    · exact .inr rfl
    · exact .inl rfl

/-- Claiming an unowned granule keeps the claim invariant. -/
theorem Claiming.takeUnowned (hs : Claiming s id k) (hg : g < shadowGranules) (hfree : s.slots g = idUnowned) :
    Claiming (s.setSlot g id) id (k + 1) ∧ ClaimFrame s (s.setSlot g id) id g := by
  have hused := hs.shape.used_of_live hs.live
  refine ⟨⟨hs.shape.setSlot hg hused.2, ?_, ?_, hs.live⟩, rfl, .inl ?_, ?_, rfl, rfl⟩
  · intro id' hid'
    have hmove := slotCount_setSlot s hg id id'
    have hcount := hs.counts id' hid'
    have hunowned : s.slots g ≠ id' := by
      rw [hfree]
      exact Nat.ne_of_lt (Nat.lt_of_lt_of_le (by decide) hid')
    rw [if_neg hunowned] at hmove
    rw [setSlot_regions]
    -- the count of the region grows by the granule, those of the others stand
    by_cases hclaim : id' = id
    · subst hclaim
      rw [if_pos rfl] at hcount hmove ⊢
      omega
    · rw [if_neg (Ne.symm hclaim)] at hmove
      rw [if_neg hclaim] at hcount ⊢
      omega
  · intro id' hid' hstate g' hg'
    have hold := hs.owns id' hid' hstate g' hg'
    by_cases h : g' = g
    · subst h
      rw [hfree] at hold
      rcases hold with hold | hold
      · -- id `0` is never live
        have hused' := hs.shape.used_of_live hstate
        rw [← hold] at hused'
        exact absurd hused'.1 (by decide)
      · exact absurd hold (by decide)
    · rw [setSlot_slots, update_of_ne h]
      exact hold
  · rw [setSlot_slots, update_self]
  · intro g' h
    rw [setSlot_slots, update_of_ne h]

/-- One granule of `safety_claim_granules`. -/
theorem Claiming.step (hs : Claiming s id k) (hg : g < shadowGranules) :
    Claiming (claimStep id (s, k) g).1 id (claimStep id (s, k) g).2 ∧
      ClaimFrame s (claimStep id (s, k) g).1 id g := by
  have hidle : s.slots g = id ∨ s.slots g = idContested → ClaimFrame s s id g :=
    fun h => ⟨rfl, h, fun _ _ => rfl, rfl, rfl⟩
  simp only [claimStep]
  -- the granule is the region's already, another region's, contested or unowned
  by_cases hself : s.slots g = id
  · rw [if_pos hself]
    exact ⟨hs, hidle (.inl hself)⟩
  rw [if_neg hself]
  by_cases hfirst : idFirst ≤ s.slots g
  · have hlt := (hs.shape.used_of_slot hfirst).lt_ids hs.shape
    rw [if_pos hfirst, safetyRegion_eq_some hlt]
    have hid : idContested ≠ id := by
      have hused := hs.shape.used_of_live hs.live
      exact Nat.ne_of_lt (Nat.lt_of_lt_of_le (by decide) hused.1)
    split
    · have h := hs.take hself hfirst (.inl rfl)
      rwa [if_neg hid, Nat.add_zero] at h
    · rename_i hdead
      have hstate : (s.regions (s.slots g)).state ≠ .live := by
        intro h
        generalize s.regions (s.slots g) = r at hdead h
        obtain ⟨_, _, _, _, _, _, _⟩ := r
        subst h
        exact hdead _ _ _ _ _ _ rfl
      have h := hs.take hself hfirst (.inr ⟨rfl, hstate⟩)
      rwa [if_pos rfl] at h
  · rw [if_neg hfirst]
    by_cases hcontested : s.slots g = idContested
    · rw [if_pos hcontested]
      exact ⟨hs, hidle (.inr hcontested)⟩
    · rw [if_neg hcontested]
      refine hs.takeUnowned hg ?_
      simp only [idFirst, idContested, idUnowned] at *
      omega

/-- The whole loop: every granule ends up owned or contested. -/
theorem Claiming.fold (l : List ℕ) (hl : ∀ g ∈ l, g < shadowGranules) (hs : Claiming s id k) :
    let t := l.foldl (claimStep id) (s, k)
    Claiming t.1 id t.2 ∧ t.1.regions id = s.regions id ∧ t.1.generation = s.generation ∧
      t.1.allocatorDepth = s.allocatorDepth ∧
      ∀ g, g ∈ l ∨ s.slots g = id ∨ s.slots g = idContested → t.1.slots g = id ∨ t.1.slots g = idContested := by
  induction l generalizing s k with
  | nil => exact ⟨hs, rfl, rfl, rfl, fun g hg => by simpa using hg⟩
  | cons g rest ih =>
    obtain ⟨hstep, hframe⟩ := hs.step (hl g (mem_cons_self ..))
    obtain ⟨hrest, hregion, hgen, hdepth, hclaimed⟩ :=
      ih (fun g' hg' => hl g' (.tail _ hg')) hstep
    refine ⟨hrest, hregion.trans hframe.region, hgen.trans hframe.generation,
      hdepth.trans hframe.depth, fun g' hg' => hclaimed g' ?_⟩
    -- a slot that is settled once stays so: the step at `g` writes no other slot
    by_cases h : g' = g
    · subst h
      exact .inr hframe.claimed
    · rw [hframe.others g' h]
      simpa [h] using hg'

/-- Registering, after the acquisition: the claim books its slots and the invariant is back. -/
theorem Claiming.finish (hs : Claiming s id 0) :
    let t := s.safetyClaimGranules (s.regions id).start (s.regions id).size id
    Inv t ∧ t.generation = s.generation ∧ t.allocatorDepth = s.allocatorDepth ∧
      ∃ n, t.regions id = { s.regions id with granules := n } := by
  have hlt := (hs.shape.used_of_live hs.live).lt_ids hs.shape
  have hrange : ∀ g ∈ granulesOf (s.regions id).start (s.regions id).size, g < shadowGranules :=
    fun g hg => touches_lt (hs.shape.descriptors id) hs.live hg
  obtain ⟨hend, hregion, hgen, hdepth, hclaimed⟩ := hs.fold _ hrange
  simp only [safetyClaimGranules, safetyRegion_eq_some hlt]
  set t := (granulesOf (s.regions id).start (s.regions id).size).foldl (claimStep id) (s, 0)
  have hold : (t.1.regions id).state ≠ .freelist := by rw [hend.live]; nofun
  have hdesc := hend.shape.descriptors id
  refine ⟨⟨hend.shape.setRegion hold hold rfl
    ⟨fun h => absurd h hold, hdesc.live_size, hdesc.live_end⟩, ?_, ?_⟩, hgen, hdepth,
    (t.1.regions id).granules + t.2, ?_⟩
  · intro id' hid'
    have hcount := hend.counts id' hid'
    rw [slotCount_congr (setRegion_slots _), ite_self, Nat.add_zero, hcount, setRegion_regions]
    by_cases h : id' = id
    · subst h
      rw [update_self, if_pos rfl]
    · rw [update_of_ne h, if_neg h, Nat.add_zero]
  · intro id' _ hstate g hg
    rw [setRegion_regions] at hstate hg
    by_cases h : id' = id
    · subst h
      rw [update_self, Touches] at hg
      rw [hregion] at hg
      exact hclaimed g (.inl hg)
    · rw [update_of_ne h] at hstate hg
      exact hend.owns id' h hstate g hg
  · rw [setRegion_regions, update_self, hregion]

/-! ## Acquiring an id -/

/-- A new generation keeps the identities apart. -/
theorem Identities.fresh (hs : Identities s) (hgen : t.generation = s.generation + 1)
    (hused : ∀ id', t.Used id' → id' ≠ id → s.Used id') (hregions : ∀ id', id' ≠ id → t.regions id' = s.regions id')
    (hid : id < identityIds) (hident : (t.regions id).identity = (s.generation + 1) * identityIds + id) :
    Identities t := by
  -- the new identity is above all that were given before
  have hnew : generationOf (t.regions id) = s.generation + 1 := by
    rw [generationOf, hident, Nat.mul_comm, Nat.mul_add_div (by decide), Nat.div_eq_of_lt hid, Nat.add_zero]
  have hle : ∀ id', t.Used id' → id' ≠ id →
      0 < generationOf (t.regions id') ∧ generationOf (t.regions id') ≤ s.generation := by
    intro id' hid' hne
    rw [hregions id' hne]
    exact ⟨hs.pos id' (hused id' hid' hne), hs.le id' (hused id' hid' hne)⟩
  refine ⟨?_, ?_, ?_, ?_⟩
  · intro id' hid'
    by_cases h : id' = id
    · subst h
      rw [hident, Nat.mul_add_mod', Nat.mod_eq_of_lt hid]
    · rw [hregions id' h]
      exact hs.id_eq id' (hused id' hid' h)
  · intro id' hid'
    by_cases h : id' = id
    · subst h
      rw [hnew]
      exact Nat.succ_pos _
    · exact (hle id' hid' h).1
  · intro id' hid'
    rw [hgen]
    by_cases h : id' = id
    · subst h
      rw [hnew]
    · exact Nat.le_succ_of_le (hle id' hid' h).2
  · intro id' id'' hid' hid'' heq
    by_cases h : id' = id <;> by_cases h' : id'' = id
    · rw [h, h']
    · subst h
      have := (hle id'' hid'' h').2
      omega
    · subst h'
      have := (hle id' hid' h).2
      omega
    · rw [hregions id' h, hregions id'' h'] at heq
      exact hs.inj id' id'' (hused id' hid' h) (hused id'' hid'' h') heq

/-- The descriptor `safety_region_acquire` writes. -/
def acquiredRegion (start size generation id : ℕ) : SafetyRegion :=
  ⟨start, size, 0, .live, 0, generation <<< 24 ||| id, true⟩

/-- What an acquisition leaves behind. -/
structure Acquired (s t : Registry) (start size id : ℕ) : Prop where
  claiming : Claiming t id 0
  region : t.regions id = acquiredRegion start size (s.generation + 1) id
  generation : t.generation = s.generation + 1
  depth : t.allocatorDepth = s.allocatorDepth

/-- Handing out an id in the free state, for whatever becomes of the list head and `region_next`. -/
theorem Inv.acquired (hs : Inv s) (hfirst : idFirst ≤ id) (hid : id < t.regionNext)
    (hnext : t.regionNext ≤ identityIds) (hmono : s.regionNext ≤ t.regionNext)
    (hstate : (s.regions id).state = .freelist) (hsize : 0 < size) (hend : start + size ≤ 2 ^ safetyAddressBits)
    (hslots : t.slots = s.slots) (hused : ∀ id', t.Used id' → id' ≠ id → s.Used id')
    (hregions : t.regions = Function.update s.regions id (acquiredRegion start size (s.generation + 1) id))
    (hgen : t.generation = s.generation + 1) (hdepth : t.allocatorDepth = s.allocatorDepth)
    (hfree : ∃ l, FreeList t l) : Acquired s t start size id := by
  have hself : t.regions id = acquiredRegion start size (s.generation + 1) id := by
    rw [hregions, update_self]
  have hother : ∀ id', id' ≠ id → t.regions id' = s.regions id' := by
    intro id' h
    rw [hregions, update_of_ne h]
  have hshape : Shape t := by
    refine ⟨hs.shape.next_pos.trans hmono, hnext, ?_, ?_, ?_, hfree, ?_, ?_⟩
    · intro g
      rw [hslots]
      exact lt_of_lt_of_le (hs.shape.slots_lt g) hmono
    · intro g hg
      rw [hslots]
      exact hs.shape.slots_out g hg
    · intro id' hid'
      have hne : id' ≠ id := by rintro rfl; exact hid' ⟨hfirst, hid⟩
      rw [hother id' hne]
      exact hs.shape.unused id' fun h => hid' ⟨h.1, lt_of_lt_of_le h.2 hmono⟩
    · rw [hregions]
      exact (forall_update_iff _ (fun _ r => Descriptor r)).mpr
        ⟨⟨nofun, fun _ => hsize, fun _ => hend⟩, fun id' _ => hs.shape.descriptors id'⟩
    · refine hs.shape.identities.fresh hgen hused hother (hid.trans_le hnext) ?_
      rw [hself, acquiredRegion, identity_eq _ (hid.trans_le hnext)]
  refine ⟨⟨hshape, ?_, ?_, by rw [hself]; rfl⟩, hself, hgen, hdepth⟩
  -- no granule counts for the new region yet
  · intro id' hid'
    have hcount := hs.counts id' hid'
    rw [ite_self, Nat.add_zero] at hcount ⊢
    rw [slotCount_congr hslots, hcount]
    by_cases h : id' = id
    · subst h
      rw [(hs.shape.descriptors id').free_granules hstate, hself]
      rfl
    · rw [hother id' h]
  · intro id' hid' hlive g hg
    rw [hother id' hid'] at hlive hg
    rw [hslots]
    have hne : id' ≠ idUnowned :=
      Nat.ne_of_gt (Nat.lt_of_lt_of_le (by decide) (hs.shape.used_of_live hlive).1)
    exact hs.owns id' hne hlive g hg

/-- `safety_region_acquire`. -/
theorem Inv.acquire (hs : Inv s) (hsize : 0 < size) (hend : start + size ≤ 2 ^ safetyAddressBits)
    (h : s.safetyRegionAcquire start size = some (id, t)) : Acquired s t start size id := by
  -- the free list as the chain that starts at its head
  obtain ⟨l, hchain, hnodup, hmem⟩ := hs.shape.free
  simp only [safetyRegionAcquire] at h
  split at h
  · cases h
  split at h
  · -- the head of the free list
    rename_i hhead
    cases h
    cases l with
    | nil => exact absurd hchain hhead
    | cons id rest =>
      obtain ⟨hid, hrest⟩ := hchain
      obtain ⟨hnotin, hnodup⟩ := nodup_cons.mp hnodup
      obtain ⟨hused, hstate⟩ := (hmem id).mp (mem_cons_self ..)
      rw [hid] at hhead ⊢
      refine hs.acquired hused.1 hused.2 hs.shape.next_le le_rfl hstate hsize hend rfl
        (fun _ h _ => h) rfl rfl rfl ⟨rest, ?_, hnodup, ?_⟩
      · exact hrest.update hnotin
      · intro id'
        change _ ↔ s.Used id' ∧ (Function.update s.regions id _ id').state = .freelist
        by_cases h : id' = id
        · subst h
          simp [hnotin]
        · rw [update_of_ne h, ← hmem id', mem_cons]
          simp [h]
  · -- a fresh id
    split at h
    · cases h
    rename_i hblock
    cases h
    have hlt : s.regionNext < identityIds := by
      simp only [identityIds]
      omega
    have hunused : ¬ s.Used s.regionNext := fun h => absurd h.2 (lt_irrefl _)
    have hstate : (s.regions s.regionNext).state = .freelist := by
      rw [hs.shape.unused _ hunused]
      rfl
    have hnotin : s.regionNext ∉ l := fun h => hunused ((hmem _).mp h).1
    refine hs.acquired hs.shape.next_pos (Nat.lt_succ_self _) hlt (Nat.le_succ _) hstate hsize hend
      rfl (fun id' h hne => ⟨h.1, lt_of_le_of_ne (Nat.le_of_lt_succ h.2) hne⟩) rfl rfl rfl
      ⟨l, hchain.update hnotin, hnodup, ?_⟩
    intro id'
    change _ ↔ (idFirst ≤ id' ∧ id' < s.regionNext + 1) ∧
      (Function.update s.regions s.regionNext _ id').state = .freelist
    by_cases h : id' = s.regionNext
    · subst h
      simp [hnotin]
    · rw [update_of_ne h, hmem id', Used]
      constructor <;> rintro ⟨⟨h₁, h₂⟩, h₃⟩ <;> exact ⟨⟨h₁, by omega⟩, h₃⟩

/-! ## The calls -/

/-- The empty registry. -/
theorem Inv.init : Inv Registry.init := by
  have hzero : ∀ id, ¬ Registry.init.Used id := fun id h => by
    exact absurd (lt_of_lt_of_le h.2 h.1) (lt_irrefl _)
  refine ⟨⟨le_rfl, by decide, fun _ => (by decide : idUnowned < idFirst), fun _ _ => rfl,
    fun _ _ => rfl, ⟨[], rfl, nodup_nil, fun id => ?_⟩, fun _ => ⟨fun _ => rfl, nofun, nofun⟩,
    ⟨fun id h => absurd h (hzero id), fun id h => absurd h (hzero id),
      fun id h => absurd h (hzero id), fun id _ h => absurd h (hzero id)⟩⟩, ?_, ?_⟩
  · simp [hzero]
  · intro id hid
    have hcount : Registry.init.slotCount id = 0 :=
      countAt_eq_zero_iff.mpr fun g _ => Nat.ne_of_lt (Nat.lt_of_lt_of_le (by decide : idUnowned < idFirst) hid)
    rw [hcount, ite_self]
    rfl
  · exact fun _ _ h => nomatch h

/-- Ending a region leaves the count of generations. -/
@[simp] theorem killRegion_generation : (s.killRegion id).generation = s.generation := by
  rw [killRegion]
  split <;> rfl

@[simp] theorem killRegion_allocatorDepth :
    (s.killRegion id).allocatorDepth = s.allocatorDepth := by
  rw [killRegion]
  split <;> rfl

/-- Ending a region leaves the identities. -/
theorem killRegion_identity (id' : ℕ) : ((s.killRegion id).regions id').identity = (s.regions id').identity := by
  rw [killRegion]
  by_cases h : id' = id
  · subst h
    split <;> simp [safetyRegionRecycle]
  · split <;> simp [safetyRegionRecycle, update_of_ne h]

/-- What `liveAt` finds is live and starts at the pointer. -/
theorem liveAt_eq_some (h : s.liveAt start = some id) :
    (s.regions id).state = .live ∧ (s.regions id).start = start ∧ s.safetyLookup start = id := by
  simp only [liveAt] at h
  split at h
  · split at h
    · rename_i region hregion
      split at h
      · rename_i hlive
        cases h
        rw [safetyRegion] at hregion
        split at hregion
        · cases hregion
        cases hregion
        exact ⟨hlive.2, hlive.1, rfl⟩
      · cases h
    · cases h
  · cases h

/-- Ending the region at a pointer keeps the invariant. -/
theorem Inv.killAt (hs : Inv s) (pointer : ℕ) : Inv (s.killAt pointer) := by
  rw [Registry.killAt]
  split
  · rename_i existing h
    exact hs.killRegion (liveAt_eq_some h).1
  · exact hs

@[simp] theorem killAt_generation (pointer : ℕ) :
    (s.killAt pointer).generation = s.generation := by
  rw [killAt]
  split <;> simp

/-- Ending the region at a pointer leaves the depth of the allocator. -/
@[simp] theorem killAt_allocatorDepth (pointer : ℕ) :
    (s.killAt pointer).allocatorDepth = s.allocatorDepth := by
  rw [killAt]
  split <;> simp

/-- It leaves the identities. -/
theorem killAt_identity (pointer id : ℕ) : ((s.killAt pointer).regions id).identity = (s.regions id).identity := by
  rw [killAt]
  split
  · exact killRegion_identity id
  · rfl

/-- A successful registration: the pointer's old region is gone, a new id has a new generation. -/
theorem Inv.register (hs : Inv s) (h : s.safetyRegisterRegion pointer size heap = .ok (t, some id)) :
    Inv t ∧ t.generation = s.generation + 1 ∧ t.allocatorDepth = s.allocatorDepth ∧ ∃ n, t.regions id =
        { acquiredRegion pointer size (s.generation + 1) id with granules := n, heap := heap } := by
  simp only [safetyRegisterRegion] at h
  split at h
  · cases h
  rename_i hpointer
  split at h
  · cases h
  rename_i hrange
  split at h
  · cases h
  rename_i id' s' hacq
  obtain ⟨rfl, hid⟩ := Prod.mk.inj (Except.ok.inj h)
  obtain rfl := Option.some.inj hid
  have hsize : 0 < size := by omega
  have hend : pointer + size ≤ 2 ^ safetyAddressBits := by
    simp only [addressLimit, safetyAddressBits] at *
    omega
  -- what covered the pointer is taken out first, then the slot is acquired and the granules claimed
  have hgot := (hs.killAt pointer).acquire hsize hend hacq
  obtain ⟨hinv, hgen, hdepth, n, hregion⟩ := hgot.claiming.finish
  have hstart : (s'.regions id').start = pointer := by rw [hgot.region]; rfl
  have hsize' : (s'.regions id').size = size := by rw [hgot.region]; rfl
  rw [hstart, hsize'] at hinv hgen hdepth hregion
  rw [hgot.region, killAt_generation] at hregion
  set u := s'.safetyClaimGranules pointer size id'
  have hold : (u.regions id').state ≠ .freelist := by
    rw [hregion]
    exact fun h => by cases h
  have hdesc := hinv.shape.descriptors id'
  have hshape : Shape (u.setRegion id' { u.regions id' with heap := heap }) :=
    hinv.shape.setRegion hold hold rfl ⟨hdesc.free_granules, hdesc.live_size, hdesc.live_end⟩
  refine ⟨⟨hshape.withLive _, hinv.counts.congr rfl fun id'' => ?_, hinv.owns.congr rfl ?_⟩, ?_, ?_, n, ?_⟩
  · by_cases h : id'' = id'
    · subst h
      simp
    · simp [update_of_ne h]
  · exact liveSub_setRegion fun h => ⟨h, rfl, rfl⟩
  · exact hgen.trans (by rw [hgot.generation, killAt_generation])
  · exact hdepth.trans (by rw [hgot.depth, killAt_allocatorDepth])
  · simp [hregion]

/-- A call that registers nothing changes nothing. -/
theorem register_none (h : s.safetyRegisterRegion pointer size heap = .ok (t, none)) : t = s := by
  simp only [safetyRegisterRegion] at h
  split at h
  · exact (Prod.mk.inj (Except.ok.inj h)).1.symm
  split at h
  · cases h
  split at h <;> cases h

end Registry

end Mettle.Runtime

import Mettle.Runtime.RegistryLookup

/-!
# Runs of the runtime

A run is any sequence of calls into the runtime, from program start, that does not stop the program.
The registry invariant holds along every run, and the regions registered on the way all get
different identities.
-/

open List Option

namespace Mettle.Runtime

/-- A call into the runtime that changes its state. -/
inductive Call where
  | register (pointer size : ℕ)
  | registerStatic (pointer size : ℕ)
  | unregister (pointer : ℕ)
  | reregister (oldPointer newPointer size : ℕ)
  | valueStore (slot value identity size : ℕ)
  | valueCopy (destination source size : ℕ)
  | valueClear (destination size : ℕ)
  deriving DecidableEq, Repr

namespace Safety

/-- Perform one call; the second component is the region id it acquired, if any. -/
def call (s : Safety) : Call → Except Trap (Safety × Option ℕ)
  | .register pointer size => s.mettleSafetyRegister pointer size
  | .registerStatic pointer size => s.mettleSafetyRegisterStatic pointer size
  | .unregister pointer => .ok (s.mettleSafetyUnregister pointer, none)
  | .reregister oldPointer newPointer size => s.mettleSafetyReregister oldPointer newPointer size
  | .valueStore slot value identity size =>
    .ok (s.mettleSafetyValueStore slot value identity size, none)
  | .valueCopy destination source size =>
    match s.mettleSafetyValueCopy destination source size with
    | .error t => .error t
    | .ok s => .ok (s, none)
  | .valueClear destination size => .ok (s.mettleSafetyValueClear destination size, none)

/-- Perform the calls in order; the second component lists the identities that were given out. -/
def run (s : Safety) : List Call → Except Trap (Safety × List ℕ)
  | [] => .ok (s, [])
  | c :: rest =>
    match s.call c with
    | .error t => .error t
    | .ok (s, id) =>
      match s.run rest with
      | .error t => .error t
      | .ok (s', log) =>
        .ok (s', (id.map fun id => (s.registry.regions id).identity).toList ++ log)

/-! ## The value table does not touch the registry -/

variable {s t : Safety}

/-- Setting a value leaves the registry. -/
@[simp] theorem safetyValueSet_registry (address value identity : ℕ) :
    (s.safetyValueSet address value identity).registry = s.registry := by
  simp only [safetyValueSet]
  split
  · rfl
  · split <;> rfl

/-- A loop of `safety_value_set` leaves the registry alone. -/
theorem setLoop_registry {α : Type*} (l : List α) (address value identity : α → ℕ) :
    (l.foldl (fun s a => s.safetyValueSet (address a) (value a) (identity a)) s).registry
      = s.registry := by
  induction l generalizing s with
  | nil => rfl
  | cons a rest ih => rw [foldl_cons, ih, safetyValueSet_registry]

/-- So does storing one. -/
@[simp] theorem mettleSafetyValueStore_registry (slot value identity size : ℕ) :
    (s.mettleSafetyValueStore slot value identity size).registry = s.registry :=
  setLoop_registry _ _ _ (fun _ => identity)

/-- So does clearing under the lock. -/
@[simp] theorem safetyValuesClearLocked_registry (address size : ℕ) :
    (s.safetyValuesClearLocked address size).registry = s.registry := by
  rw [safetyValuesClearLocked]
  split <;> rfl

/-- So does clearing. -/
@[simp] theorem mettleSafetyValueClear_registry (address size : ℕ) :
    (s.mettleSafetyValueClear address size).registry = s.registry := by
  rw [mettleSafetyValueClear]
  split <;> simp

/-- So does copying. -/
theorem mettleSafetyValueCopy_registry {destination source size : ℕ}
    (h : s.mettleSafetyValueCopy destination source size = .ok t) : t.registry = s.registry := by
  simp only [mettleSafetyValueCopy] at h
  split at h
  · obtain rfl := Except.ok.inj h
    rfl
  split at h
  · cases h
  obtain rfl := Except.ok.inj h
  rw [setLoop_registry, safetyValuesClearLocked_registry]

/-- So does moving the values of a region. -/
theorem reregisterValues_registry {oldPointer newPointer size oldIdentity oldSize : ℕ}
    (h : s.reregisterValues oldPointer newPointer size oldIdentity oldSize = .ok t) :
    t.registry = s.registry := by
  rw [reregisterValues] at h
  split at h
  · cases h
    rfl
  split at h
  · exact mettleSafetyValueCopy_registry h
  · cases h
    rfl

/-- Unregistering ends the region at the pointer. -/
theorem mettleSafetyUnregister_registry (pointer : ℕ) :
    (s.mettleSafetyUnregister pointer).registry =
      if pointer = 0 then s.registry else s.registry.killAt pointer := by
  rw [mettleSafetyUnregister]
  split
  · rfl
  rw [Registry.killAt]
  cases s.registry.liveAt pointer with
  | none => rfl
  | some id => simp only [safetyValuesClearLocked_registry]

/-- Registering leaves the values. -/
theorem registerRegion_eq_ok {pointer size : ℕ} {heap : Bool} {id : Option ℕ}
    (h : s.registerRegion pointer size heap = .ok (t, id)) :
    s.registry.safetyRegisterRegion pointer size heap = .ok (t.registry, id) ∧
      t.values = s.values ∧ t.valueCount = s.valueCount := by
  rw [registerRegion] at h
  split at h
  · cases h
  rename_i r id' hreg
  cases h
  exact ⟨hreg, rfl, rfl⟩

end Safety

/-! ## One call -/

open Registry

/-- How a call changes the registry, by the id it acquired. -/
structure CallEffect (s t : Registry) (id : Option ℕ) : Prop where
  inv : Inv t
  depth : t.allocatorDepth = s.allocatorDepth
  generation : t.generation = s.generation + id.toList.length
  identity : ∀ i ∈ id, generationOf (t.regions i) = t.generation

theorem CallEffect.refl {s : Registry} (hs : Inv s) : CallEffect s s none :=
  ⟨hs, rfl, rfl, nofun⟩

/-- Killing a region after a call keeps the call's effect. -/
theorem CallEffect.killAt {s t : Registry} {id : Option ℕ} (h : CallEffect s t id) (pointer : ℕ) :
    CallEffect s (t.killAt pointer) id := by
  refine ⟨h.inv.killAt pointer, ?_, ?_, fun i hi => ?_⟩
  · rw [killAt_allocatorDepth, h.depth]
  · rw [killAt_generation, h.generation]
  · rw [generationOf, killAt_identity, killAt_generation]
    exact h.identity i hi

/-- A call that registers a region. -/
theorem CallEffect.register {s t : Registry} {pointer size : ℕ} {heap : Bool} {id : Option ℕ}
    (hs : Inv s) (h : s.safetyRegisterRegion pointer size heap = .ok (t, id)) :
    CallEffect s t id := by
  cases id with
  | none =>
    obtain rfl := register_none h
    exact .refl hs
  | some id =>
    obtain ⟨hinv, hgen, hdepth, n, hregion⟩ := hs.register h
    refine ⟨hinv, hdepth, hgen, ?_⟩
    rintro i hi
    obtain rfl := mem_some.mp hi
    have hlive : (t.regions id).state = .live := by rw [hregion]; rfl
    have hlt := (hinv.shape.used_of_live hlive).lt_ids hinv.shape
    rw [hregion, generationOf, acquiredRegion, identity_eq _ hlt, hgen, Nat.mul_comm,
      Nat.mul_add_div (by decide), Nat.div_eq_of_lt hlt, Nat.add_zero]

namespace Safety

/-- Every call keeps the registry invariant. -/
theorem call_effect {s t : Safety} {c : Call} {id : Option ℕ} (hs : Inv s.registry)
    (h : s.call c = .ok (t, id)) : CallEffect s.registry t.registry id := by
  -- unregistering takes out at most the region at the pointer, whatever it does to the values
  have hunregister : ∀ {s t : Safety} {id : Option ℕ} (pointer : ℕ),
      CallEffect s.registry t.registry id →
        CallEffect s.registry (t.mettleSafetyUnregister pointer).registry id := by
    intro s t id pointer ht
    rw [mettleSafetyUnregister_registry]
    split
    · exact ht
    · exact ht.killAt pointer
  cases c with
  | register pointer size => exact .register hs (registerRegion_eq_ok h).1
  | registerStatic pointer size => exact .register hs (registerRegion_eq_ok h).1
  | unregister pointer =>
    cases h
    exact hunregister pointer (.refl hs)
  -- a moved region is registered at its new place before the old one goes
  | reregister oldPointer newPointer size =>
    simp only [call, mettleSafetyReregister] at h
    split at h
    · cases h
      exact .refl hs
    split at h
    · cases h
    rename_i u id' hreg
    split at h
    · cases h
    rename_i v hvalues
    have heffect : CallEffect s.registry v.registry id' := by
      rw [reregisterValues_registry hvalues]
      exact .register hs (registerRegion_eq_ok hreg).1
    split at h <;> cases h
    · exact hunregister oldPointer heffect
    · exact heffect
  | valueStore slot value identity size =>
    cases h
    rw [mettleSafetyValueStore_registry]
    exact .refl hs
  | valueCopy destination source size =>
    simp only [call] at h
    split at h
    · cases h
    rename_i hcopy
    cases h
    rw [mettleSafetyValueCopy_registry hcopy]
    exact .refl hs
  | valueClear destination size =>
    cases h
    rw [mettleSafetyValueClear_registry]
    exact .refl hs

/-! ## Whole runs -/

/-- A run of one more call. -/
theorem run_cons {s t : Safety} {c : Call} {rest : List Call} {log : List ℕ}
    (h : s.run (c :: rest) = .ok (t, log)) :
    ∃ u id log', s.call c = .ok (u, id) ∧ u.run rest = .ok (t, log') ∧
      log = (id.map fun id => (u.registry.regions id).identity).toList ++ log' := by
  rw [run] at h
  split at h
  · cases h
  rename_i u id hcall
  split at h
  · cases h
  rename_i v log' hrest
  cases h
  exact ⟨u, id, log', hcall, hrest, rfl⟩

/-- The invariant along a run; every identity it gives out is newer than those before the run. -/
theorem run_inv {calls : List Call} {s t : Safety} {log : List ℕ} (hs : Inv s.registry)
    (h : s.run calls = .ok (t, log)) :
    Inv t.registry ∧ t.registry.allocatorDepth = s.registry.allocatorDepth ∧ log.Nodup ∧
      ∀ i ∈ log, s.registry.generation < i / identityIds := by
  induction calls generalizing s log with
  | nil =>
    cases h
    exact ⟨hs, rfl, nodup_nil, nofun⟩
  | cons c rest ih =>
    obtain ⟨u, id, log, hcall, hrest, rfl⟩ := run_cons h
    have heffect := call_effect hs hcall
    obtain ⟨hinv, hdepth, hnodup, hnew⟩ := ih heffect.inv hrest
    refine ⟨hinv, hdepth.trans heffect.depth, ?_⟩
    have hgen := heffect.generation
    cases id with
    | none =>
      rw [hgen] at hnew
      exact ⟨hnodup, hnew⟩
    | some id =>
      have hself := heffect.identity id rfl
      rw [generationOf] at hself
      simp only [toList_some, length_cons, length_nil] at hgen
      simp only [map_some, toList_some, singleton_append, nodup_cons,
        mem_cons, forall_eq_or_imp]
      refine ⟨⟨fun hmem => ?_, hnodup⟩, by omega, fun i hi => ?_⟩
      · have := hnew _ hmem
        omega
      · have := hnew i hi
        omega

/-- The shadow registry after any run: the counts are right, the free list holds unowned ids once
each, identities are never reused, and the newest live region around an address is the one the
lookup finds and the check enforces. -/
theorem run_registry_correct {calls : List Call} {t : Safety} {log : List ℕ}
    (h : Safety.init.run calls = .ok (t, log)) :
    (∀ id, idFirst ≤ id → (t.registry.regions id).granules = t.registry.slotCount id) ∧
    (∃ l, FreeChain t.registry.regions t.registry.regionFree l ∧ l.Nodup ∧
      ∀ id ∈ l, t.registry.slotCount id = 0) ∧
    log.Nodup ∧
    ∀ id address, t.registry.NewestAt id address →
      t.registry.safetyLookup address = id ∧
      ∀ (offset size : BitVec 64) (line : ℕ),
        t.registry.mettleSafetyCheck address offset size line = .ok () ↔
          size.toInt ≤ 0 ∨ Inside (t.registry.regions id) address offset size := by
  obtain ⟨hinv, hdepth, hnodup, -⟩ := run_inv Inv.init h
  have hcounts : ∀ id, idFirst ≤ id →
      (t.registry.regions id).granules = t.registry.slotCount id := by
    intro id hid
    have hcount := hinv.counts id hid
    rw [ite_self, Nat.add_zero] at hcount
    exact hcount.symm
  obtain ⟨l, hchain, hlist, hmem⟩ := hinv.shape.free
  refine ⟨hcounts, ⟨l, hchain, hlist, fun id hid => ?_⟩, hnodup, fun id address hnewest => ?_⟩
  · obtain ⟨hused, hfree⟩ := (hmem id).mp hid
    rw [← hcounts id hused.1]
    exact (hinv.shape.descriptors id).free_granules hfree
  · exact ⟨hinv.lookup_newest hnewest, hinv.check_iff hdepth hnewest⟩

/-- Two regions that share a granule: the second one answers for the shared part. -/
theorem run_registry_correct_shared_granule :
    ∃ t log, Safety.init.run [.register 4096 24, .register 4112 24] = .ok (t, log) ∧ log.Nodup ∧
      t.registry.safetyLookup 4116 = 3 ∧
      ∀ (offset size : BitVec 64) (line : ℕ),
        t.registry.mettleSafetyCheck 4116 offset size line = .ok () ↔
          size.toInt ≤ 0 ∨ Inside (t.registry.regions 3) 4116 offset size := by
  obtain ⟨t, log, h⟩ : ∃ t log,
      Safety.init.run [.register 4096 24, .register 4112 24] = .ok (t, log) := ⟨_, _, rfl⟩
  obtain ⟨-, -, hnodup, hlookup⟩ := run_registry_correct h
  have hstate : t.registry.regionNext = 4 ∧ Covers (t.registry.regions 3) 4116 ∧
      generationOf (t.registry.regions 2) ≤ generationOf (t.registry.regions 3) := by
    obtain ⟨rfl, -⟩ := Prod.mk.inj (Except.ok.inj h)
    decide
  have hnewest : t.registry.NewestAt 3 4116 := by
    refine ⟨hstate.2.1, fun id' hcov => ?_⟩
    have hused := (run_inv Inv.init h).1.shape.used_of_live hcov.1
    rw [Used, hstate.1, idFirst] at hused
    obtain rfl | rfl : id' = 2 ∨ id' = 3 := by omega
    · exact hstate.2.2
    · exact le_rfl
  exact ⟨t, log, h, hnodup, hlookup 3 4116 hnewest⟩

end Safety

end Mettle.Runtime

import Mettle.Runtime.ByteShadow

/-!
# The value table implements the byte shadow

The chained hash table of `safety_provenance.inc`, read byte by byte, is the byte shadow: every call
of the runtime does to the table what the shadow's call does to the bytes. The invariant keeps each
entry in the chain of its address, one entry an address, and the entry count right.
-/

namespace Mettle.Runtime.Safety

open Shadow

variable {s t : Safety}

/-- The addresses of a chain; the invariant of the table only looks at them. -/
def addresses (s : Safety) (bucket : ℕ) : List ℕ := (s.values bucket).map (·.address)

/-- Every entry is in its chain, an address has one entry, and the entries are counted. -/
structure TableInv (s : Safety) : Prop where
  bucket_eq : ∀ k, ∀ a ∈ s.addresses k, safetyValueBucket a = k
  nodup : ∀ k, (s.addresses k).Nodup
  count : s.valueCount = ∑ k ∈ Finset.range safetyValueBuckets, (s.addresses k).length

/-- The metadata of a byte as the table has it; an entry with identity `0` is no metadata. -/
def shadow (s : Safety) (b : ℕ) : Option Stamp :=
  (s.safetyValueFind b).bind fun e => stamp e.identity e.owner

/-- The abstraction of a runtime state. -/
def toByteShadow (s : Safety) : ByteShadow := ⟨s.registry, s.shadow⟩

theorem bucket_lt (a : ℕ) : safetyValueBucket a < safetyValueBuckets :=
  Nat.mod_lt _ (by decide)

theorem TableInv.init : TableInv Safety.init :=
  ⟨fun _ _ h => absurd h List.not_mem_nil, fun _ => List.nodup_nil, by simp [Safety.init, addresses]⟩

/-- The invariant only looks at the addresses and the count. -/
theorem TableInv.congr (hs : TableInv s) (haddr : ∀ k, t.addresses k = s.addresses k)
    (hcount : t.valueCount = s.valueCount) : TableInv t :=
  ⟨by simpa only [haddr] using hs.bucket_eq, by simpa only [haddr] using hs.nodup,
    by simpa only [haddr, hcount] using hs.count⟩

/-- An empty count means empty chains. -/
theorem TableInv.find_none (hs : TableInv s) (h : s.valueCount = 0) (b : ℕ) : s.safetyValueFind b = none := by
  have hzero := (Finset.sum_eq_zero_iff.mp (hs.count.symm.trans h)) _ (Finset.mem_range.mpr (bucket_lt b))
  have hnil : s.values (safetyValueBucket b) = [] := by
    simpa [addresses] using hzero
  rw [safetyValueFind, hnil, List.find?_nil]

variable {e : SafetyValue} {b size source destination pointer : ℕ} {id : Option ℕ} {log : List ℕ}

/-- A chain with one entry an address finds every entry it has. -/
theorem find?_of_mem {l : List SafetyValue} (hl : (l.map (·.address)).Nodup) (he : e ∈ l) :
    l.find? (fun e' => e'.address == e.address) = some e := by
  induction l with
  | nil => exact absurd he List.not_mem_nil
  | cons d rest ih =>
    obtain ⟨hd, hrest⟩ := List.nodup_cons.mp hl
    rcases List.mem_cons.mp he with rfl | he
    · simp
    · have hne : d.address ≠ e.address := by
        intro h
        exact hd (List.mem_map.mpr ⟨e, he, h.symm⟩)
      rw [List.find?_cons_of_neg (by simpa using hne)]
      exact ih hrest he

/-- The entries of the table are those a lookup finds. -/
theorem TableInv.mem_iff (hs : TableInv s) {k : ℕ} :
    e ∈ s.values k ↔ safetyValueBucket e.address = k ∧ s.safetyValueFind e.address = some e := by
  constructor
  · intro he
    have hk := hs.bucket_eq k e.address (List.mem_map_of_mem he)
    refine ⟨hk, ?_⟩
    rw [safetyValueFind, hk]
    exact find?_of_mem (hs.nodup k) he
  · rintro ⟨rfl, hfind⟩
    exact List.mem_of_find?_eq_some hfind

/-- What is found has the address it was looked up by. -/
theorem address_of_find (h : s.safetyValueFind b = some e) : e.address = b := by
  simpa using List.find?_some h

/-! ## Setting one byte -/

/-- Updating an entry keeps the addresses. -/
theorem updateEntry_addresses (a v i o : ℕ) (l : List SafetyValue) :
    (updateEntry a v i o l).map (·.address) = l.map (·.address) := by
  induction l with
  | nil => rfl
  | cons e rest ih =>
    rw [updateEntry]
    split
    · rfl
    · rw [List.map_cons, List.map_cons, ih]

/-- What is found after an update. -/
theorem find?_updateEntry (a v i o b : ℕ) (l : List SafetyValue) :
    (updateEntry a v i o l).find? (fun e => e.address == b) =
      if b = a then (l.find? (fun e => e.address == a)).map fun e => { e with value := v, identity := i, owner := o }
      else l.find? (fun e => e.address == b) := by
  induction l with
  | nil => simp [updateEntry]
  | cons e rest ih =>
    rw [updateEntry]
    by_cases he : e.address = a
    · rw [if_pos he]
      by_cases hb : b = a
      · subst hb
        simp [he]
      · have hne : e.address ≠ b := fun h => hb (h.symm.trans he)
        simp [hb, hne]
    · rw [if_neg he]
      by_cases heb : e.address = b
      · have hb : b ≠ a := fun h => he (heb.trans h)
        simp [heb, hb]
      · rw [List.find?_cons_of_neg (by simpa using heb), ih]
        simp [he, heb]

/-- `safety_value_set` writes the stamp of one byte. -/
theorem safetyValueSet_shadow (a v i : ℕ) : (s.safetyValueSet a v i).shadow
      = Function.update s.shadow a (stamp i (s.registry.safetyOwnerIdentity a)) := by
  funext b
  simp only [safetyValueSet]
  cases hfind : s.safetyValueFind a with
  | some e =>
    by_cases hb : b = a
    · subst hb
      rw [safetyValueFind] at hfind
      simp [shadow, safetyValueFind, find?_updateEntry, hfind]
    · by_cases hk : safetyValueBucket b = safetyValueBucket a
      · simp [shadow, safetyValueFind, hk, find?_updateEntry, hb]
      · simp [shadow, safetyValueFind, Function.update_of_ne hk, hb]
  | none =>
    by_cases hi : i = 0
    · rw [if_pos hi]
      by_cases hb : b = a
      · subst hb
        simp [shadow, hfind, hi, stamp]
      · rw [Function.update_of_ne hb]
    · rw [if_neg hi]
      by_cases hb : b = a
      · subst hb
        simp [shadow, safetyValueFind]
      · by_cases hk : safetyValueBucket b = safetyValueBucket a
        · simp [shadow, safetyValueFind, hk, hb, Ne.symm hb]
        · simp [shadow, safetyValueFind, Function.update_of_ne hk, hb]

/-- `safety_value_set` keeps the table invariant. -/
theorem TableInv.set (hs : TableInv s) (a v i : ℕ) : TableInv (s.safetyValueSet a v i) := by
  simp only [safetyValueSet]
  cases hfind : s.safetyValueFind a with
  | some e =>
    refine hs.congr (fun k => ?_) rfl
    simp only [addresses]
    by_cases hk : k = safetyValueBucket a
    · subst hk
      rw [Function.update_self, updateEntry_addresses]
    · rw [Function.update_of_ne hk]
  | none =>
    by_cases hi : i = 0
    · rw [if_pos hi]
      exact hs
    rw [if_neg hi]
    set owner := s.registry.safetyOwnerIdentity a
    have haddr : addresses { s with
        values := Function.update s.values (safetyValueBucket a) (⟨a, v, i, owner⟩ :: s.values (safetyValueBucket a))
        valueCount := s.valueCount + 1 }
        = Function.update s.addresses (safetyValueBucket a) (a :: s.addresses (safetyValueBucket a)) := by
      funext k
      by_cases hk : k = safetyValueBucket a
      · subst hk
        simp [addresses]
      · simp [addresses, Function.update_of_ne hk]
    -- the address is new to its chain: the lookup found nothing
    have hnew : a ∉ s.addresses (safetyValueBucket a) := by
      intro h
      obtain ⟨e, he, rfl⟩ := List.mem_map.mp h
      exact List.find?_eq_none.mp hfind e he (beq_self_eq_true e.address)
    refine ⟨?_, ?_, ?_⟩
    · rw [haddr]
      refine (Function.forall_update_iff _ fun k l => ∀ a ∈ l, safetyValueBucket a = k).mpr
        ⟨?_, fun k _ => hs.bucket_eq k⟩
      intro a' ha'
      rcases List.mem_cons.mp ha' with rfl | ha'
      · rfl
      · exact hs.bucket_eq _ a' ha'
    · rw [haddr]
      exact (Function.forall_update_iff _ fun _ l => List.Nodup l).mpr
        ⟨List.nodup_cons.mpr ⟨hnew, hs.nodup _⟩, fun k _ => hs.nodup k⟩
    · have hmem : safetyValueBucket a ∈ Finset.range safetyValueBuckets :=
        Finset.mem_range.mpr (bucket_lt a)
      have hrest : ∑ k ∈ (Finset.range safetyValueBuckets).erase (safetyValueBucket a),
          (Function.update s.addresses (safetyValueBucket a) (a :: s.addresses (safetyValueBucket a)) k).length
          = ∑ k ∈ (Finset.range safetyValueBuckets).erase (safetyValueBucket a), (s.addresses k).length :=
        Finset.sum_congr rfl fun k hk => by
          rw [Function.update_of_ne (Finset.ne_of_mem_erase hk)]
      have hcount := hs.count
      rw [← Finset.add_sum_erase _ _ hmem] at hcount
      rw [haddr, ← Finset.add_sum_erase _ _ hmem, hrest, Function.update_self, List.length_cons]
      change s.valueCount + 1 = _
      omega

/-- A loop of `safety_value_set`: a byte it writes gets the identity it was given. -/
theorem setLoop_shadow {α : Type*} (l : List α) (address value identity : α → ℕ) {m : ℕ}
    (hm : ∀ a ∈ l, address a = b → identity a = m) :
    (l.foldl (fun s a => s.safetyValueSet (address a) (value a) (identity a)) s).shadow b =
      if ∃ a ∈ l, address a = b then stamp m (s.registry.safetyOwnerIdentity b)
      else s.shadow b := by
  induction l generalizing s with
  | nil => simp
  | cons a rest ih =>
    rw [List.foldl_cons, ih fun a' ha' => hm a' (.tail _ ha'), safetyValueSet_registry, safetyValueSet_shadow]
    by_cases hrest : ∃ a' ∈ rest, address a' = b
    · obtain ⟨a', ha', hb⟩ := hrest
      rw [if_pos ⟨a', ha', hb⟩, if_pos ⟨a', List.mem_cons_of_mem _ ha', hb⟩]
    · rw [if_neg hrest]
      by_cases ha : address a = b
      · rw [if_pos ⟨a, (.head _) .., ha⟩, ha, Function.update_self, hm a (List.mem_cons_self ..) ha]
      · rw [Function.update_of_ne (Ne.symm ha), if_neg]
        rintro ⟨a', ha', hb⟩
        rcases List.mem_cons.mp ha' with rfl | ha'
        · exact ha hb
        · exact hrest ⟨a', ha', hb⟩

/-- Setting several values keeps the table in order. -/
theorem TableInv.setLoop {α : Type*} (hs : TableInv s) (l : List α) (address value identity : α → ℕ) :
    TableInv (l.foldl (fun s a => s.safetyValueSet (address a) (value a) (identity a)) s) := by
  induction l generalizing s with
  | nil => exact hs
  | cons a rest ih => exact ih (hs.set _ _ _)

/-- A store writes its identity to its bytes. -/
theorem mettleSafetyValueStore_shadow (slot value identity size : ℕ) :
    (s.mettleSafetyValueStore slot value identity size).shadow
      = store s.registry.safetyOwnerIdentity s.shadow slot identity size := by
  funext b
  rw [mettleSafetyValueStore, store, setLoop_shadow (m := identity) _ _ _ (fun _ => identity) fun _ _ _ => rfl]
  refine if_congr ?_ rfl rfl
  simp only [accessed, List.mem_range, eq_comm]

/-! ## Clearing and re-stamping -/

/-- An entry overlaps a range when one of its bytes is in it. -/
theorem overlaps_iff {start : ℕ} : overlaps start size e = true ↔ inRange start size e.address := by
  simp only [overlaps, inRange, decide_eq_true_eq]
  omega

/-- Dropping the entries of a range. -/
theorem find?_filter_overlaps (start size b : ℕ) (l : List SafetyValue) :
    (l.filter (fun e => ¬ overlaps start size e)).find? (fun e => e.address == b) =
      if inRange start size b then none else l.find? (fun e => e.address == b) := by
  rw [List.find?_filter]
  by_cases hb : inRange start size b
  · rw [if_pos hb]
    refine List.find?_eq_none.mpr fun e _ h => ?_
    simp only [decide_eq_true_eq, beq_iff_eq, overlaps_iff] at h
    exact h.1 (h.2 ▸ hb)
  · rw [if_neg hb]
    congr 1
    funext e
    by_cases he : e.address = b
    · simp [overlaps_iff, he, hb]
    · simp [he]

/-- Clearing a range forgets its bytes. -/
theorem TableInv.clear_shadow (hs : TableInv s) (start size : ℕ) :
    (s.safetyValuesClearLocked start size).shadow = clear s.shadow start size := by
  funext b
  rw [safetyValuesClearLocked, clear]
  by_cases hzero : s.valueCount = 0
  · rw [if_pos hzero, shadow, hs.find_none hzero, Option.bind_none, ite_self]
  · rw [if_neg hzero]
    simp only [shadow, safetyValueFind, find?_filter_overlaps]
    split <;> rfl

/-- Clearing keeps the table invariant; the count loses exactly the dropped entries. -/
theorem TableInv.clearLocked (hs : TableInv s) (start size : ℕ) :
    TableInv (s.safetyValuesClearLocked start size) := by
  rw [safetyValuesClearLocked]
  split
  · exact hs
  have hsub : ∀ k, List.Sublist
      (((s.values k).filter fun e => ¬ overlaps start size e).map (·.address)) (s.addresses k) :=
    fun k => List.Sublist.map _ List.filter_sublist
  refine ⟨fun k a ha => hs.bucket_eq k a ((hsub k).subset ha), fun k => (hsub k).nodup (hs.nodup k), ?_⟩
  have hsplit : ∀ k, (s.addresses k).length = (s.values k).countP (overlaps start size) +
      ((s.values k).filter fun e => ¬ overlaps start size e).length := by
    intro k
    rw [addresses, List.length_map, List.length_eq_countP_add_countP (overlaps start size),
      ← List.countP_eq_length_filter]
  have hsum : ((List.range safetyValueBuckets).map fun k =>
      (s.values k).countP (overlaps start size)).sum
      = ∑ k ∈ Finset.range safetyValueBuckets, (s.values k).countP (overlaps start size) := rfl
  change s.valueCount - _ = ∑ k ∈ Finset.range safetyValueBuckets, (List.map _ _).length
  simp only [hsum, hs.count, hsplit, Finset.sum_add_distrib, List.length_map]
  exact Nat.add_sub_cancel_left _ _

/-- Re-stamping touches the owners of a range only. -/
theorem safetyValuesReown_shadow (pointer size oldIdentity : ℕ) :
    (s.safetyValuesReown pointer size oldIdentity).shadow = reown s.shadow pointer size oldIdentity
      (s.registry.safetyOwnerIdentity pointer) := by
  funext b
  simp only [shadow, safetyValueFind, safetyValuesReown, reown, List.find?_map]
  have hpred : ((fun e : SafetyValue => e.address == b) ∘ fun e =>
      if e.owner = oldIdentity ∧ overlaps pointer size e then
        { e with owner := s.registry.safetyOwnerIdentity pointer } else e)
      = fun e => e.address == b := by
    funext e
    simp only [Function.comp_apply]
    split <;> rfl
  rw [hpred]
  cases hfind : (s.values (safetyValueBucket b)).find? fun e => e.address == b with
  | none => rfl
  | some e =>
    have haddr : e.address = b := by simpa using List.find?_some hfind
    simp only [Option.map_some, Option.bind_some, overlaps_iff, haddr, stamp]
    split <;> by_cases hzero : e.identity = 0 <;> simp_all

/-- Giving entries another owner keeps the table in order. -/
theorem TableInv.reown (hs : TableInv s) (pointer size oldIdentity : ℕ) :
    TableInv (s.safetyValuesReown pointer size oldIdentity) := by
  refine hs.congr (fun k => ?_) rfl
  simp only [addresses, safetyValuesReown, List.map_map]
  refine List.map_congr_left fun e _ => ?_
  simp only [Function.comp_apply]
  split <;> rfl

/-! ## Loading and copying -/

/-- What a byte shows, in terms of its entry. -/
theorem visible_shadow (b : ℕ) : visible s.registry.safetyOwnerIdentity s.shadow b =
      match s.safetyValueFind b with
      | some e => if e.owner = s.registry.safetyOwnerIdentity b then e.identity else 0
      | none => 0 := by
  rw [visible, shadow]
  cases s.safetyValueFind b with
  | none => rfl
  | some e =>
    by_cases hzero : e.identity = 0
    · simp [stamp, hzero]
    · simp [stamp, hzero]

/-- A load merges what its bytes show. -/
theorem mettleSafetyValueLoad_eq (slot size : ℕ) :
    s.mettleSafetyValueLoad slot size = s.toByteShadow.load slot size := by
  have hstep : s.loadStep slot = fun identity i => mettleSafetyMergeIdentity identity
      (visible s.registry.safetyOwnerIdentity s.shadow ((slot + i) % 2 ^ 64)) := by
    funext identity i
    rw [loadStep, visible_shadow]
    have hmerge : mettleSafetyMergeIdentity identity 0 = identity := by
      rw [mettleSafetyMergeIdentity]
      split <;> simp_all
    cases s.safetyValueFind ((slot + i) % 2 ^ 64) with
    | none => exact hmerge.symm
    | some e =>
      dsimp only
      split
      · rfl
      · exact hmerge.symm
  rw [mettleSafetyValueLoad, hstep, ByteShadow.load, ← foldl_merge, List.foldl_map]
  rfl

/-- A byte's load is what it shows. -/
theorem load_byte (hb : b < 2 ^ 64) :
    s.mettleSafetyValueLoad b 1 = visible s.registry.safetyOwnerIdentity s.shadow b := by
  rw [mettleSafetyValueLoad_eq, ByteShadow.load]
  change merge [visible _ _ ((b + 0) % 2 ^ 64)] = _
  rw [← foldl_merge, Nat.add_zero, Nat.mod_eq_of_lt hb]
  rfl

/-- The snapshot holds the visible identities of the source range. -/
theorem TableInv.mem_copySnapshot (hs : TableInv s) : e ∈ s.copySnapshot source size ↔
      s.safetyValueFind e.address = some e ∧ inRange source size e.address ∧ e.identity ≠ 0 ∧
        e.owner = s.registry.safetyOwnerIdentity e.address := by
  simp only [copySnapshot, List.mem_flatMap, List.mem_range, List.mem_filter, hs.mem_iff,
    decide_eq_true_eq, overlaps_iff]
  constructor
  · rintro ⟨k, -, ⟨-, hfind⟩, hzero, hrange, howner⟩
    exact ⟨hfind, hrange, hzero, howner⟩
  · rintro ⟨hfind, hrange, hzero, howner⟩
    exact ⟨_, bucket_lt e.address, ⟨rfl, hfind⟩, hzero, hrange, howner⟩

/-- A snapshot entry holds what its byte shows. -/
theorem TableInv.visible_of_mem (hs : TableInv s) (h : e ∈ s.copySnapshot source size) :
    visible s.registry.safetyOwnerIdentity s.shadow e.address = e.identity := by
  obtain ⟨hfind, -, -, howner⟩ := hs.mem_copySnapshot.mp h
  rw [visible_shadow, hfind]
  exact if_pos howner

/-- A byte of the source range outside the snapshot shows nothing. -/
theorem TableInv.visible_of_notMem (hs : TableInv s) (source size : ℕ) (hb : inRange source size b)
    (h : ∀ e ∈ s.copySnapshot source size, e.address ≠ b) :
    visible s.registry.safetyOwnerIdentity s.shadow b = 0 := by
  rw [visible_shadow]
  cases hfind : s.safetyValueFind b with
  | none => rfl
  | some e =>
    have haddr := address_of_find hfind
    subst haddr
    by_contra hvisible
    dsimp only at hvisible
    split at hvisible
    · rename_i howner
      exact h e (hs.mem_copySnapshot.mpr ⟨hfind, hb, hvisible, howner⟩) rfl
    · exact hvisible rfl

/-- Snapshot, clear and set amount to one move of the visible identities. -/
theorem TableInv.copyLoop_shadow (hs : TableInv s) (destination source size : ℕ) : ((s.copySnapshot source size).foldl
      (fun s e => s.safetyValueSet (destination + (e.address - source)) e.value e.identity)
      (s.safetyValuesClearLocked destination size)).shadow
      = move s.registry.safetyOwnerIdentity s.shadow destination source size := by
  funext b
  have hsource : ∀ e ∈ s.copySnapshot source size, inRange source size e.address :=
    fun e he => (hs.mem_copySnapshot.mp he).2.1
  rw [setLoop_shadow (m := visible s.registry.safetyOwnerIdentity s.shadow
    (source + (b - destination))), hs.clear_shadow, safetyValuesClearLocked_registry, move, clear]
  · by_cases hb : inRange destination size b
    · rw [if_pos hb, if_pos hb]
      split
      · rfl
      · rename_i hnone
        rw [hs.visible_of_notMem source size]
        · rfl
        · obtain ⟨h₁, h₂⟩ := hb
          exact ⟨by omega, by omega⟩
        · intro e he haddr
          refine hnone ⟨e, he, ?_⟩
          obtain ⟨h₁, h₂⟩ := hb
          omega
    · rw [if_neg hb, if_neg hb, if_neg]
      rintro ⟨e, he, rfl⟩
      obtain ⟨h₁, h₂⟩ := hsource e he
      exact hb ⟨by omega, by omega⟩
  · intro e he hb
    rw [← hs.visible_of_mem he]
    obtain ⟨h₁, h₂⟩ := hsource e he
    congr 1
    omega

/-! ## The simulation -/

/-- `mettle_safety_value_copy` is the shadow's copy. -/
theorem TableInv.copy (hs : TableInv s) (h : s.mettleSafetyValueCopy destination source size = .ok t) :
    TableInv t ∧ s.toByteShadow.copy destination source size = .ok t.toByteShadow := by
  simp only [mettleSafetyValueCopy, ByteShadow.copy] at h ⊢
  by_cases hnone : size = 0 ∨ destination = source
  · rw [if_pos hnone] at h ⊢
    obtain rfl := Except.ok.inj h
    exact ⟨hs, rfl⟩
  rw [if_neg hnone] at h ⊢
  by_cases hrange : 2 ^ 64 - 1 - destination < size - 1 ∨ 2 ^ 64 - 1 - source < size - 1
  · rw [if_pos hrange] at h
    cases h
  rw [if_neg hrange] at h ⊢
  obtain rfl := Except.ok.inj h
  refine ⟨(hs.clearLocked _ _).setLoop _ _ _ _, congrArg _ ?_⟩
  rw [toByteShadow, toByteShadow, hs.copyLoop_shadow, setLoop_registry, safetyValuesClearLocked_registry]

/-- `mettle_safety_unregister` is the shadow's. -/
theorem TableInv.unregister (hs : TableInv s) (pointer : ℕ) : TableInv (s.mettleSafetyUnregister pointer) ∧
      (s.mettleSafetyUnregister pointer).toByteShadow = s.toByteShadow.unregister pointer := by
  simp only [mettleSafetyUnregister, ByteShadow.unregister]
  by_cases hnull : pointer = 0
  · rw [if_pos hnull, if_pos hnull]
    exact ⟨hs, rfl⟩
  rw [if_neg hnull, if_neg hnull]
  have hregistry : s.toByteShadow.registry = s.registry := rfl
  rw [hregistry]
  cases s.registry.liveAt pointer with
  | none => exact ⟨hs, rfl⟩
  | some id =>
    have hclear := hs.clearLocked (s.registry.regions id).start (s.registry.regions id).size
    have hkill : ((s.safetyValuesClearLocked (s.registry.regions id).start
        (s.registry.regions id).size).registry.killRegion id) = s.registry.killRegion id := by
      rw [safetyValuesClearLocked_registry]
    exact ⟨hclear.congr (fun _ => rfl) rfl,
      congrArg₂ ByteShadow.mk hkill (hs.clear_shadow _ _)⟩

/-- Registering leaves the table alone. -/
theorem TableInv.register (hs : TableInv s) {heap : Bool} (h : s.registerRegion pointer size heap = .ok (t, id)) :
    TableInv t ∧ s.toByteShadow.register pointer size heap = .ok t.toByteShadow := by
  obtain ⟨hreg, hvalues, hcount⟩ := registerRegion_eq_ok h
  refine ⟨hs.congr (fun k => by rw [addresses, hvalues, addresses]) hcount, ?_⟩
  have hshadow : t.shadow = s.shadow := by
    funext b
    rw [shadow, safetyValueFind, hvalues, shadow, safetyValueFind]
  rw [ByteShadow.register, toByteShadow, hreg, toByteShadow, hshadow]

/-- `mettle_safety_reregister` is the shadow's. -/
theorem TableInv.reregister (hs : TableInv s) {oldPointer newPointer : ℕ}
    (h : s.mettleSafetyReregister oldPointer newPointer size = .ok (t, id)) :
    TableInv t ∧ s.toByteShadow.reregister oldPointer newPointer size = .ok t.toByteShadow := by
  simp only [mettleSafetyReregister, ByteShadow.reregister] at h ⊢
  by_cases hkeep : newPointer = 0 ∧ size ≠ 0
  · rw [if_pos hkeep] at h ⊢
    cases h
    exact ⟨hs, rfl⟩
  rw [if_neg hkeep] at h ⊢
  have hidentity : s.toByteShadow.registry = s.registry := rfl
  rw [hidentity]
  set oldIdentity := s.registry.mettleSafetyIdentity oldPointer
  set oldSize :=
    if oldIdentity ≠ 0 then s.registry.mettleSafetySpanIdentity oldPointer oldIdentity else 0
  cases hreg : s.mettleSafetyRegister newPointer size with
  | error trap =>
    rw [hreg] at h
    cases h
  | ok registered =>
    obtain ⟨u, id'⟩ := registered
    rw [hreg] at h
    obtain ⟨hu, hshadow⟩ := hs.register hreg
    rw [hshadow]
    simp only [reregisterValues] at h ⊢
    by_cases hplace : oldPointer = newPointer ∧ newPointer ≠ 0
    · rw [if_pos hplace] at h ⊢
      have hsame : ¬ (oldPointer ≠ 0 ∧ oldPointer ≠ newPointer) := fun h => h.2 hplace.1
      simp only [hsame, if_false] at h
      cases h
      refine ⟨hu.reown _ _ _, ?_⟩
      rw [toByteShadow, toByteShadow, safetyValuesReown_shadow]
      rfl
    · rw [if_neg hplace] at h ⊢
      have hmin : (if oldSize < size then oldSize else size) = min oldSize size := by
        rw [min_def]
        split <;> split <;> omega
      rw [hmin] at h
      -- the metadata has moved: what is left is the death of the old block
      have hrest : ∀ v : Safety, TableInv v → (if oldPointer ≠ 0 ∧ oldPointer ≠ newPointer then
            Except.ok (v.mettleSafetyUnregister oldPointer, id')
            else Except.ok (v, id')) = (Except.ok (t, id) : Except Trap _) →
          TableInv t ∧ (if oldPointer ≠ 0 ∧ oldPointer ≠ newPointer then
            Except.ok (v.toByteShadow.unregister oldPointer)
            else Except.ok v.toByteShadow) = (Except.ok t.toByteShadow : Except Trap _) := by
        intro v hv hv'
        split at hv' <;> cases hv'
        · rename_i hdies
          rw [if_pos hdies, (hv.unregister oldPointer).2]
          exact ⟨(hv.unregister oldPointer).1, rfl⟩
        · rename_i hstays
          rw [if_neg hstays]
          exact ⟨hv, rfl⟩
      by_cases hmoves : oldPointer ≠ 0 ∧ newPointer ≠ 0 ∧ 0 < oldSize
      · rw [if_pos hmoves] at h ⊢
        cases hcopy : u.mettleSafetyValueCopy newPointer oldPointer (min oldSize size) with
        | error trap =>
          rw [hcopy] at h
          cases h
        | ok v =>
          rw [hcopy] at h
          obtain ⟨hv, hmoved⟩ := hu.copy hcopy
          rw [hmoved]
          exact hrest v hv h
      · rw [if_neg hmoves] at h ⊢
        exact hrest u hu h

/-- Every call of the runtime is the shadow's call. -/
theorem TableInv.call (hs : TableInv s) {c : Call} (h : s.call c = .ok (t, id)) :
    TableInv t ∧ s.toByteShadow.call c = .ok t.toByteShadow := by
  -- registering and unregistering keep the table, the rest go by its own lemmas
  cases c with
  | register pointer size => exact hs.register h
  | registerStatic pointer size => exact hs.register h
  | unregister pointer =>
    cases h
    exact ⟨(hs.unregister pointer).1, congrArg _ (hs.unregister pointer).2.symm⟩
  | reregister oldPointer newPointer size => exact hs.reregister h
  | valueStore slot value identity size =>
    cases h
    refine ⟨hs.setLoop _ _ _ (fun _ => identity), ?_⟩
    rw [ByteShadow.call, toByteShadow, toByteShadow, mettleSafetyValueStore_shadow, mettleSafetyValueStore_registry]
  | valueCopy destination source size =>
    simp only [Safety.call] at h
    cases hcopy : s.mettleSafetyValueCopy destination source size with
    | error trap =>
      rw [hcopy] at h
      cases h
    | ok u =>
      rw [hcopy] at h
      cases h
      exact hs.copy hcopy
  | valueClear destination size =>
    cases h
    rw [ByteShadow.call, mettleSafetyValueClear]
    split
    · rename_i hzero
      refine ⟨hs, congrArg _ ?_⟩
      have hclear : clear s.shadow destination size = s.shadow := by
        funext b
        rw [clear, if_neg (fun h => by have := h.2; have := h.1; omega)]
      rw [toByteShadow, hclear]
    · refine ⟨hs.clearLocked _ _, congrArg _ ?_⟩
      rw [toByteShadow, toByteShadow, hs.clear_shadow, safetyValuesClearLocked_registry]

/-- Every run of the runtime is a run of the shadow. -/
theorem TableInv.run {calls : List Call} (hs : TableInv s) (h : s.run calls = .ok (t, log)) :
    TableInv t ∧ s.toByteShadow.run calls = .ok t.toByteShadow := by
  induction calls generalizing s log with
  | nil =>
    cases h
    exact ⟨hs, rfl⟩
  | cons c rest ih =>
    obtain ⟨u, id, log', hcall, hrest, -⟩ := run_cons h
    obtain ⟨hu, hshadow⟩ := hs.call hcall
    rw [ByteShadow.run, hshadow]
    exact ih hu hrest

/-! ## Whole runs -/

/-- What a copy leaves in each byte, overlapping ranges included. -/
theorem TableInv.copy_load (hs : TableInv s) (hsource : source < 2 ^ 64) (hb : b < 2 ^ 64)
    (h : s.mettleSafetyValueCopy destination source size = .ok t) :
    t.mettleSafetyValueLoad b 1 =
      if inRange destination size b then s.mettleSafetyValueLoad (source + (b - destination)) 1
      else s.mettleSafetyValueLoad b 1 := by
  obtain ⟨-, hcopy⟩ := hs.copy h
  rw [ByteShadow.copy] at hcopy
  split at hcopy
  · -- nothing moves: the range is empty, or every byte is its own source
    rename_i hnone
    have hshadow := congrArg ByteShadow.bytes (Except.ok.inj hcopy)
    have hregistry := congrArg ByteShadow.registry (Except.ok.inj hcopy)
    simp only [toByteShadow] at hshadow hregistry
    have hself : t.mettleSafetyValueLoad b 1 = s.mettleSafetyValueLoad b 1 := by
      rw [load_byte hb, load_byte hb, hshadow, hregistry]
    rw [hself]
    split
    · rename_i hin
      obtain ⟨h₁, h₂⟩ := hin
      rcases hnone with rfl | rfl
      · omega
      · rw [Nat.add_sub_of_le h₁]
    · rfl
  -- the range is copied: a byte inside has the stamp of its source, one outside its own
  split at hcopy
  · cases hcopy
  rename_i hrange
  have hshadow := congrArg ByteShadow.bytes (Except.ok.inj hcopy)
  have hregistry := congrArg ByteShadow.registry (Except.ok.inj hcopy)
  simp only [toByteShadow] at hshadow hregistry
  rw [load_byte hb, ← hshadow, ← hregistry, visible, move]
  by_cases hin : inRange destination size b
  · have hlt : source + (b - destination) < 2 ^ 64 := by
      obtain ⟨h₁, h₂⟩ := hin
      omega
    rw [if_pos hin, if_pos hin, load_byte hlt]
    generalize visible s.registry.safetyOwnerIdentity s.shadow (source + (b - destination)) = m
    by_cases hm : m = 0
    · simp [stamp, hm]
    · simp [stamp, hm]
  · rw [if_neg hin, if_neg hin, load_byte hb]
    rfl

/-- After the death of a region its bytes are without metadata until something writes them. -/
theorem TableInv.load_after_unregister (hs : TableInv s) {id : ℕ} {later : List Call}
    (hlive : s.registry.liveAt pointer = some id) (hnull : pointer ≠ 0)
    (hb : inRange (s.registry.regions id).start (s.registry.regions id).size b) (hlt : b < 2 ^ 64)
    (hlater : ∀ c ∈ later, ¬ c.writes b) (h : (s.mettleSafetyUnregister pointer).run later = .ok (t, log)) :
    t.mettleSafetyValueLoad b 1 = 0 := by
  obtain ⟨hdead, hunregister⟩ := hs.unregister pointer
  obtain ⟨-, hrun⟩ := hdead.run h
  rw [hunregister] at hrun
  have hcleared : (s.toByteShadow.unregister pointer).bytes b = none := by
    have hlive' : s.toByteShadow.registry.liveAt pointer = some id := hlive
    simp only [ByteShadow.unregister, if_neg hnull, hlive']
    exact if_pos hb
  have hnone : t.shadow b = none := ByteShadow.run_bytes_none hcleared hlater hrun
  rw [load_byte hlt, visible, hnone]

/-- Pointer-identity metadata is a per-byte shadow. Along every run the table is the byte shadow of
the same run and a load merges what its bytes show, that is, what was written to them while they had
the owner they have now; the owner of a byte is the newest live region around it. A copy is a
`memmove` of what the bytes show; and after a region was unregistered no byte of it shows an identity
until a later call writes it. -/
theorem run_value_shadow {calls : List Call} {log : List ℕ}
    (h : Safety.init.run calls = .ok (t, log)) :
    ByteShadow.init.run calls = .ok t.toByteShadow ∧
    (∀ slot size, t.mettleSafetyValueLoad slot size = t.toByteShadow.load slot size) ∧
    (∀ b, t.registry.OwnedBy b (t.registry.safetyOwnerIdentity b)) ∧
    (∀ destination source size t', source < 2 ^ 64 →
      t.mettleSafetyValueCopy destination source size = .ok t' → ∀ b < 2 ^ 64,
        t'.mettleSafetyValueLoad b 1 =
          if inRange destination size b then t.mettleSafetyValueLoad (source + (b - destination)) 1
          else t.mettleSafetyValueLoad b 1) ∧
    (∀ pointer id, pointer ≠ 0 → t.registry.liveAt pointer = some id →
      ∀ later t' log', (t.mettleSafetyUnregister pointer).run later = .ok (t', log') →
      ∀ b, inRange (t.registry.regions id).start (t.registry.regions id).size b →
        (∀ c ∈ later, ¬ c.writes b) → t'.mettleSafetyValueLoad b 1 = 0) := by
  obtain ⟨hinv, hshadow⟩ := TableInv.init.run h
  have hregistry := (run_inv Registry.Inv.init h).1
  refine ⟨hshadow, mettleSafetyValueLoad_eq, hregistry.ownedBy, ?_, ?_⟩
  · intro destination source size t' hsource hcopy b hb
    exact hinv.copy_load hsource hb hcopy
  · intro pointer id hnull hlive later t' log' hrun b hb hlater
    have hend := (hregistry.shape.descriptors id).live_end (Registry.liveAt_eq_some hlive).1
    have hlt : b < 2 ^ 64 := by
      have := hb.2
      simp only [safetyAddressBits] at hend
      omega
    exact hinv.load_after_unregister hlive hnull hb hlt hlater hrun

set_option maxRecDepth 8000 in
/-- An identity stored in two bytes and copied one byte up is shown by three bytes; when a second
region is registered over the last one, this has another owner and shows nothing. -/
theorem run_value_shadow_copied :
    ∃ s t u log log', Safety.init.run [.register 4096 32, .valueStore 4102 5 7 2] = .ok (s, log) ∧
      s.mettleSafetyValueCopy 4103 4102 2 = .ok t ∧
      t.mettleSafetyValueLoad 4104 1 = s.mettleSafetyValueLoad 4103 1 ∧
      Safety.init.run [.register 4096 32, .valueStore 4102 5 7 2, .valueCopy 4103 4102 2, .register 4104 16] =
        .ok (u, log') ∧
      u.registry.safetyOwnerIdentity 4104 = (u.registry.regions 3).identity ∧
      t.mettleSafetyValueLoad 4102 3 = 7 ∧ u.mettleSafetyValueLoad 4102 2 = 7 ∧
      u.mettleSafetyValueLoad 4104 1 = 0 := by
  obtain ⟨s, log, hs⟩ : ∃ s log, Safety.init.run [.register 4096 32, .valueStore 4102 5 7 2] = .ok (s, log) :=
    ⟨_, _, rfl⟩
  obtain ⟨t, hcopy⟩ : ∃ t, s.mettleSafetyValueCopy 4103 4102 2 = .ok t := by
    obtain ⟨rfl, -⟩ := Prod.mk.inj (Except.ok.inj hs)
    exact ⟨_, rfl⟩
  obtain ⟨u, log', hu⟩ : ∃ u log', Safety.init.run
      [.register 4096 32, .valueStore 4102 5 7 2, .valueCopy 4103 4102 2, .register 4104 16] = .ok (u, log') := ⟨_, _, rfl⟩
  -- the copied byte has the identity that was stored at its source
  have hmoved := (run_value_shadow hs).2.2.2.1 4103 4102 2 t (by decide) hcopy 4104 (by decide)
  obtain ⟨hinv, -⟩ := run_inv Registry.Inv.init hu
  have hstate : u.registry.regionNext = 4 ∧ Registry.Covers (u.registry.regions 3) 4104 ∧
      Registry.generationOf (u.registry.regions 2) ≤ Registry.generationOf (u.registry.regions 3) := by
    obtain ⟨rfl, -⟩ := Prod.mk.inj (Except.ok.inj hu)
    decide
  -- region 3 covers the byte and was registered last
  have hnewest : u.registry.NewestAt 3 4104 := by
    refine ⟨hstate.2.1, fun id hcov => ?_⟩
    have hused := hinv.shape.used_of_live hcov.1
    rw [Registry.Used, hstate.1, idFirst] at hused
    obtain rfl | rfl : id = 2 ∨ id = 3 := by omega
    · exact hstate.2.2
    · exact le_rfl
  refine ⟨s, t, u, log, log', hs, hcopy, hmoved, hu, ((run_value_shadow hu).2.2.1 4104).newest 3 hnewest, ?_, ?_, ?_⟩
  · obtain ⟨rfl, -⟩ := Prod.mk.inj (Except.ok.inj hs)
    obtain rfl := Except.ok.inj hcopy
    decide
  · obtain ⟨rfl, -⟩ := Prod.mk.inj (Except.ok.inj hu)
    decide
  · obtain ⟨rfl, -⟩ := Prod.mk.inj (Except.ok.inj hu)
    decide

end Mettle.Runtime.Safety

import Mettle.Runtime.Runs

/-!
# The byte shadow, the purpose of the value table

What the pointer-identity metadata is for, without the hash table: every byte of memory carries at
most one identity, stamped with the identity of the region that owned the byte when it was written.
A stamp whose owner is no longer the owner of the byte is not visible.
-/

open List

namespace Mettle.Runtime

/-- The metadata of a byte: the identity last written to it and the owner at that time. -/
structure Stamp where
  identity : ℕ
  owner : ℕ
  deriving DecidableEq, Repr

namespace Shadow

/-- Writing identity `0` leaves a byte without metadata. -/
def stamp (identity owner : ℕ) : Option Stamp :=
  if identity = 0 then none else some ⟨identity, owner⟩

/-- The identity a byte shows to its current owner, `0` when it has none. -/
def visible (owner : ℕ → ℕ) (bytes : ℕ → Option Stamp) (b : ℕ) : ℕ :=
  match bytes b with
  | none => 0
  | some m => if m.owner = owner b then m.identity else 0

/-- The bytes of a value access, which wraps at the end of the address space. -/
def accessed (slot size b : ℕ) : Prop := ∃ i < min size 8, b = (slot + i) % 2 ^ 64

instance (slot size b : ℕ) : Decidable (accessed slot size b) :=
  inferInstanceAs (Decidable (∃ i < min size 8, b = (slot + i) % 2 ^ 64))

/-- The bytes of a range. -/
def inRange (start size b : ℕ) : Prop := start ≤ b ∧ b < start + size

instance (start size b : ℕ) : Decidable (inRange start size b) :=
  inferInstanceAs (Decidable (_ ∧ _))

/-- A store writes one identity to each of its bytes. -/
def store (owner : ℕ → ℕ) (bytes : ℕ → Option Stamp) (slot identity size : ℕ) : ℕ → Option Stamp :=
  fun b => if accessed slot size b then stamp identity (owner b) else bytes b

/-- Clearing forgets a range. -/
def clear (bytes : ℕ → Option Stamp) (start size : ℕ) : ℕ → Option Stamp :=
  fun b => if inRange start size b then none else bytes b

/-- `memmove` of what is visible; every destination byte is stamped with its own owner. -/
def move (owner : ℕ → ℕ) (bytes : ℕ → Option Stamp) (destination source size : ℕ) :
    ℕ → Option Stamp :=
  fun b =>
    if inRange destination size b then
      stamp (visible owner bytes (source + (b - destination))) (owner b)
    else bytes b

/-- After an in-place resize the stamps of the old region name the new one. -/
def reown (bytes : ℕ → Option Stamp) (start size oldOwner newOwner : ℕ) : ℕ → Option Stamp :=
  fun b => (bytes b).map fun m =>
    if m.owner = oldOwner ∧ inRange start size b then { m with owner := newOwner } else m

/-- The merge of the identities of several bytes: none, the common one, or a conflict. -/
def merge (identities : List ℕ) : ℕ :=
  match (identities.filter (· ≠ 0)).dedup with
  | [] => 0
  | [identity] => identity
  | _ => 2 ^ 64 - 1

end Shadow

/-- The registry together with the metadata of every byte. -/
structure ByteShadow where
  registry : Registry
  bytes : ℕ → Option Stamp

namespace ByteShadow

open Shadow

/-- Nothing registered, no metadata. -/
def init : ByteShadow := ⟨Registry.init, fun _ => none⟩

/-- A copy moves the visible identities; it stops the program when a range leaves the address
space. -/
def copy (s : ByteShadow) (destination source size : ℕ) : Except Trap ByteShadow :=
  if size = 0 ∨ destination = source then .ok s
  else if 2 ^ 64 - 1 - destination < size - 1 ∨ 2 ^ 64 - 1 - source < size - 1 then
    .error (.internal "Fatal error: pointer metadata copy range overflow")
  else
    .ok { s with bytes := move s.registry.safetyOwnerIdentity s.bytes destination source size }

/-- The death of a region takes the metadata of its bytes along. -/
def unregister (s : ByteShadow) (pointer : ℕ) : ByteShadow :=
  if pointer = 0 then s
  else
    match s.registry.liveAt pointer with
    | none => s
    | some id =>
      { registry := s.registry.killRegion id
        bytes := clear s.bytes (s.registry.regions id).start (s.registry.regions id).size }

/-- A new region leaves the metadata of its bytes to their stamps. -/
def register (s : ByteShadow) (pointer size : ℕ) (heap : Bool) : Except Trap ByteShadow :=
  match s.registry.safetyRegisterRegion pointer size heap with
  | .error t => .error t
  | .ok (r, _) => .ok { s with registry := r }

/-- Reallocation: register the new block, let the metadata follow, let the old block die. -/
def reregister (s : ByteShadow) (oldPointer newPointer size : ℕ) : Except Trap ByteShadow :=
  if newPointer = 0 ∧ size ≠ 0 then .ok s
  else
    let oldIdentity := s.registry.mettleSafetyIdentity oldPointer
    let oldSize :=
      if oldIdentity ≠ 0 then s.registry.mettleSafetySpanIdentity oldPointer oldIdentity else 0
    match s.register newPointer size true with
    | .error t => .error t
    | .ok s =>
      if oldPointer = newPointer ∧ newPointer ≠ 0 then
        .ok { s with
          bytes := reown s.bytes newPointer size oldIdentity
            (s.registry.safetyOwnerIdentity newPointer) }
      else
        let moved :=
          if oldPointer ≠ 0 ∧ newPointer ≠ 0 ∧ 0 < oldSize then
            s.copy newPointer oldPointer (min oldSize size)
          else .ok s
        match moved with
        | .error t => .error t
        | .ok s =>
          if oldPointer ≠ 0 ∧ oldPointer ≠ newPointer then .ok (s.unregister oldPointer) else .ok s

/-- One call. -/
def call (s : ByteShadow) : Call → Except Trap ByteShadow
  | .register pointer size => s.register pointer size true
  | .registerStatic pointer size => s.register pointer size false
  | .unregister pointer => .ok (s.unregister pointer)
  | .reregister oldPointer newPointer size => s.reregister oldPointer newPointer size
  | .valueStore slot _ identity size =>
    .ok { s with bytes := store s.registry.safetyOwnerIdentity s.bytes slot identity size }
  | .valueCopy destination source size => s.copy destination source size
  | .valueClear destination size => .ok { s with bytes := clear s.bytes destination size }

/-- The calls of a run, in order. -/
def run (s : ByteShadow) : List Call → Except Trap ByteShadow
  | [] => .ok s
  | c :: rest =>
    match s.call c with
    | .error t => .error t
    | .ok s => s.run rest

/-- What a load of some bytes must answer. -/
def load (s : ByteShadow) (slot size : ℕ) : ℕ :=
  merge ((List.range (min size 8)).map fun i =>
    visible s.registry.safetyOwnerIdentity s.bytes ((slot + i) % 2 ^ 64))

end ByteShadow

/-! ## Bytes without metadata -/

/-- The bytes to which a call may bring an identity. -/
def Call.writes : Call → ℕ → Prop
  | .valueStore slot _ _ size, b => Shadow.accessed slot size b
  | .valueCopy destination _ size, b => Shadow.inRange destination size b
  | .reregister _ newPointer size, b => Shadow.inRange newPointer size b
  | _, _ => False

namespace ByteShadow

open Shadow

variable {s t : ByteShadow} {b : ℕ}

/-- A byte without a value has none after a copy elsewhere. -/
theorem copy_bytes_none {destination source size : ℕ} (hs : s.bytes b = none)
    (hb : ¬ inRange destination size b) (h : s.copy destination source size = .ok t) :
    t.bytes b = none := by
  rw [copy] at h
  split at h
  · cases h
    exact hs
  split at h
  · cases h
  cases h
  exact (if_neg hb).trans hs

/-- It has none after a region ended. -/
theorem unregister_bytes_none (hs : s.bytes b = none) (pointer : ℕ) :
    (s.unregister pointer).bytes b = none := by
  rw [unregister]
  split
  · exact hs
  split
  · exact hs
  · simp only [clear, hs, ite_self]

/-- Registering a region changes no value. -/
theorem register_bytes {pointer size : ℕ} {heap : Bool}
    (h : s.register pointer size heap = .ok t) : t.bytes = s.bytes := by
  rw [register] at h
  split at h
  · cases h
  cases h
  rfl

/-- It has none after a region was moved elsewhere. -/
theorem reregister_bytes_none {oldPointer newPointer size : ℕ} (hs : s.bytes b = none)
    (hb : ¬ inRange newPointer size b) (h : s.reregister oldPointer newPointer size = .ok t) :
    t.bytes b = none := by
  simp only [reregister] at h
  generalize (if s.registry.mettleSafetyIdentity oldPointer ≠ 0 then _ else 0) = oldSize at h
  split at h
  · cases h
    exact hs
  split at h
  · cases h
  rename_i u hreg
  have hu : u.bytes b = none := by rw [register_bytes hreg, hs]
  split at h
  · cases h
    simp [reown, hu]
  split at h
  · cases h
  rename_i v hmoved
  have hv : v.bytes b = none := by
    split at hmoved
    · refine copy_bytes_none hu (fun hin => hb ⟨hin.1, ?_⟩) hmoved
      exact hin.2.trans_le (Nat.add_le_add_left (min_le_right _ _) _)
    · cases hmoved
      exact hu
  split at h <;> cases h
  · exact unregister_bytes_none hv oldPointer
  · exact hv

/-- Only the calls that write a byte can give it metadata. -/
theorem call_bytes_none {c : Call} (hs : s.bytes b = none) (hb : ¬ c.writes b)
    (h : s.call c = .ok t) : t.bytes b = none := by
  cases c with
  | register pointer size => rw [register_bytes h, hs]
  | registerStatic pointer size => rw [register_bytes h, hs]
  | unregister pointer =>
    cases h
    exact unregister_bytes_none hs pointer
  | reregister oldPointer newPointer size => exact reregister_bytes_none hs hb h
  | valueStore slot value identity size =>
    cases h
    exact (if_neg hb).trans hs
  | valueCopy destination source size => exact copy_bytes_none hs hb h
  | valueClear destination size =>
    cases h
    simp only [clear, hs, ite_self]

/-- So a byte that no call writes has no value. -/
theorem run_bytes_none {calls : List Call} (hs : s.bytes b = none)
    (hb : ∀ c ∈ calls, ¬ c.writes b) (h : s.run calls = .ok t) : t.bytes b = none := by
  induction calls generalizing s with
  | nil =>
    cases h
    exact hs
  | cons c rest ih =>
    rw [run] at h
    split at h
    · cases h
    rename_i u hcall
    exact ih (call_bytes_none hs (hb c (mem_cons_self ..)) hcall)
      (fun c' hc' => hb c' (.tail _ hc')) h

end ByteShadow

/-! ## Merging -/

namespace Shadow

/-- Once two identities met, the accumulator stays at the conflict. -/
theorem foldl_merge_conflict (l : List ℕ) :
    l.foldl mettleSafetyMergeIdentity (2 ^ 64 - 1) = 2 ^ 64 - 1 := by
  induction l with
  | nil => rfl
  | cons b rest ih =>
    have hstep : mettleSafetyMergeIdentity (2 ^ 64 - 1) b = 2 ^ 64 - 1 := by
      rw [mettleSafetyMergeIdentity, if_neg (by decide)]
      split <;> rfl
    rw [foldl_cons, hstep, ih]

/-- From an identity on, the fold keeps it until a different one comes. -/
theorem foldl_merge_ne_zero {a : ℕ} (ha : a ≠ 0) (l : List ℕ) :
    l.foldl mettleSafetyMergeIdentity a =
      if ∀ b ∈ l, b = 0 ∨ b = a then a else 2 ^ 64 - 1 := by
  induction l with
  | nil => simp
  | cons b rest ih =>
    rw [foldl_cons, mettleSafetyMergeIdentity, if_neg ha]
    by_cases hb : b = 0 ∨ a = b
    · have hb' : b = 0 ∨ b = a := hb.imp_right Eq.symm
      rw [if_pos hb, ih]
      simp [hb']
    · have hb' : ¬ (b = 0 ∨ b = a) := fun h => hb (h.imp_right Eq.symm)
      rw [if_neg hb, foldl_merge_conflict]
      simp [hb']

/-- The merge of identities led by `a`. -/
theorem merge_cons_ne_zero {a : ℕ} (ha : a ≠ 0) (l : List ℕ) :
    merge (a :: l) = if ∀ b ∈ l, b = 0 ∨ b = a then a else 2 ^ 64 - 1 := by
  have hmem : a ∈ ((a :: l).filter (· ≠ 0)).dedup := by simp [ha]
  have hnodup := nodup_dedup ((a :: l).filter (· ≠ 0))
  have hall : (∀ b ∈ l, b = 0 ∨ b = a) ↔ ∀ b ∈ ((a :: l).filter (· ≠ 0)).dedup, b = a := by
    simp only [mem_dedup, mem_filter, mem_cons, decide_eq_true_eq]
    constructor
    · rintro h b ⟨rfl | hb, hne⟩
      · rfl
      · exact (h b hb).resolve_left hne
    · intro h b hb
      by_cases hzero : b = 0
      · exact .inl hzero
      · exact .inr (h b ⟨.inr hb, hzero⟩)
  simp only [merge, hall]
  generalize ((a :: l).filter (· ≠ 0)).dedup = d at *
  match d with
  | [] => exact absurd hmem not_mem_nil
  | [b] =>
    obtain rfl := mem_singleton.mp hmem
    simp
  | b :: c :: rest =>
    have hne : b ≠ c := by
      simp only [nodup_cons, mem_cons, not_or] at hnodup
      exact hnodup.1.1
    rw [if_neg]
    intro h
    exact hne ((h b (by simp)).trans (h c (by simp)).symm)

/-- The accumulating merge of the runtime is the merge of all the identities. -/
theorem foldl_merge (l : List ℕ) : l.foldl mettleSafetyMergeIdentity 0 = merge l := by
  induction l with
  | nil => rfl
  | cons a rest ih =>
    rw [foldl_cons, mettleSafetyMergeIdentity, if_pos rfl]
    by_cases ha : a = 0
    · subst ha
      rw [ih]
      simp [merge]
    · rw [foldl_merge_ne_zero ha, merge_cons_ne_zero ha]

end Shadow

end Mettle.Runtime

import Mettle.Runtime.RegistryInvariant

/-!
# What the shadow lookup answers

Under the registry invariant `safety_lookup` finds the newest live region around an address, whether
the granule is owned or contested, and `mettle_safety_check` accepts exactly the accesses inside it.
-/

open List

namespace Mettle.Runtime.Registry

variable {s : Registry} {id address : ℕ}

/-- A live region around an address. -/
def Covers (r : SafetyRegion) (address : ℕ) : Prop :=
  r.state = .live ∧ r.start ≤ address ∧ address < r.start + r.size

instance (r : SafetyRegion) (address : ℕ) : Decidable (Covers r address) :=
  inferInstanceAs (Decidable (_ ∧ _ ∧ _))

/-- The region of an id is live around the address, and no live region around it is newer. -/
def NewestAt (s : Registry) (id address : ℕ) : Prop :=
  Covers (s.regions id) address ∧
    ∀ id', Covers (s.regions id') address →
      generationOf (s.regions id') ≤ generationOf (s.regions id)

variable {r : SafetyRegion} {base : ℕ}

theorem holds_iff_covers : holds r address = true ↔ Covers r address := by
  simp only [holds, Covers, decide_eq_true_eq]
  constructor <;> rintro ⟨h₁, h₂, h₃⟩ <;> exact ⟨h₁, h₂, by omega⟩

/-- The granule of a covered address belongs to the region. -/
theorem Covers.touches (h : Covers r address) : Touches r (address / safetyGranule) := by
  obtain ⟨-, hstart, hend⟩ := h
  refine mem_granulesOf.mpr ⟨Nat.div_le_div_right hstart, Nat.div_le_div_right ?_⟩
  omega

/-- A covered address is inside the supported range, so its slot is read. -/
theorem Shape.slotAt_eq (hs : Shape s) (h : Covers (s.regions id) address) :
    s.slotAt address = s.slots (address / safetyGranule) := by
  have hend := (hs.descriptors id).live_end h.1
  have hlt : address < 2 ^ safetyAddressBits := lt_of_lt_of_le h.2.2 hend
  have hzero : address >>> safetyAddressBits = 0 := by
    rw [Nat.shiftRight_eq_div_pow, Nat.div_eq_of_lt hlt]
  rw [slotAt, if_neg (not_not.mpr hzero)]

/-! ## The contested scan -/

/-- The scan keeps a running maximum over the candidates it has seen. -/
theorem scan_fold (s : Registry) (address : ℕ) (l : List ℕ) (hl : ∀ c ∈ l, c < identityIds) (best : ℕ × ℕ) :
    let t := l.foldl (s.scanStep address) best
    best.1 ≤ t.1 ∧ (∀ c ∈ l, Covers (s.regions c) address → (s.regions c).identity ≤ t.1) ∧
      (t = best ∨ ∃ c ∈ l, Covers (s.regions c) address ∧ t = ((s.regions c).identity, c)) := by
  -- on the candidates
  induction l generalizing best with
  | nil => exact ⟨le_rfl, nofun, .inl rfl⟩
  | cons c rest ih =>
    have hstep : s.scanStep address best c =
        if Covers (s.regions c) address ∧ best.1 < (s.regions c).identity
        then ((s.regions c).identity, c) else best := by
      rw [scanStep, safetyRegion_eq_some (hl c (mem_cons_self ..))]
      simp only [holds_iff_covers]
    obtain ⟨hbest, hmax, hwho⟩ :=
      ih (fun c' hc' => hl c' (.tail _ hc')) (s.scanStep address best c)
    set t := rest.foldl (s.scanStep address) (s.scanStep address best c)
    -- the candidate covers the address and is newer than the best so far
    by_cases htake : Covers (s.regions c) address ∧ best.1 < (s.regions c).identity
    · rw [if_pos htake] at hstep
      rw [hstep] at hbest hwho
      refine ⟨htake.2.le.trans hbest, ?_, .inr ?_⟩
      · rintro c' hc' hcov
        rcases mem_cons.mp hc' with rfl | hc'
        · exact hbest
        · exact hmax c' hc' hcov
      · rcases hwho with hwho | ⟨c', hc', hcov, hwho⟩
        · exact ⟨c, (.head _) .., htake.1, hwho⟩
        · exact ⟨c', mem_cons_of_mem _ hc', hcov, hwho⟩
    · rw [if_neg htake] at hstep
      rw [hstep] at hbest hwho
      refine ⟨hbest, ?_, ?_⟩
      · rintro c' hc' hcov
        rcases mem_cons.mp hc' with rfl | hc'
        · exact (Nat.le_of_not_lt fun h => htake ⟨hcov, h⟩).trans hbest
        · exact hmax c' hc' hcov
      · rcases hwho with hwho | ⟨c', hc', hcov, hwho⟩
        · exact .inl hwho
        · exact .inr ⟨c', mem_cons_of_mem _ hc', hcov, hwho⟩

/-- A contested granule resolves to the newest live region around the address. -/
theorem scan_newest (hs : Shape s) (h : s.NewestAt id address) :
    ((range' idFirst (s.regionNext - idFirst)).foldl (s.scanStep address)
      (0, idUnowned)).2 = id := by
  have hmem : ∀ c, c ∈ range' idFirst (s.regionNext - idFirst) ↔ s.Used c := by
    intro c
    rw [mem_range'_1, Used]
    omega
  have hused := hs.used_of_live h.1.1
  obtain ⟨-, hmax, hwho⟩ := scan_fold s address _
    (fun c hc => ((hmem c).mp hc).lt_ids hs) (0, idUnowned)
  have hid := hmax id ((hmem id).mpr hused) h.1
  have hpos : 0 < (s.regions id).identity := by
    have := hs.identities.pos id hused
    exact Nat.pos_of_ne_zero fun hzero => by simp [generationOf, hzero] at this
  rcases hwho with hwho | ⟨c, hc, hcov, hwho⟩
  · rw [hwho] at hid
    exact absurd hid (Nat.not_le_of_lt hpos)
  · -- the winner is no older than `id` and `id` is the newest, so both have one generation
    rw [hwho] at hid ⊢
    have hle : generationOf (s.regions id) ≤ generationOf (s.regions c) :=
      Nat.div_le_div_right hid
    exact hs.identities.inj c id ((hmem c).mp hc) hused (le_antisymm (h.2 c hcov) hle)

/-- `safety_lookup` at an address finds the newest live region around it. -/
theorem Inv.lookup_newest (hs : Inv s) (h : s.NewestAt id address) :
    s.safetyLookup address = id := by
  have hused := hs.shape.used_of_live h.1.1
  have hne : id ≠ idUnowned := Nat.ne_of_gt (Nat.lt_of_lt_of_le (by decide) hused.1)
  have hne' : id ≠ idContested := Nat.ne_of_gt (Nat.lt_of_lt_of_le (by decide) hused.1)
  simp only [safetyLookup, hs.shape.slotAt_eq h.1]
  rcases hs.owns id hne h.1.1 _ h.1.touches with hslot | hslot
  · rw [hslot, if_pos hne']
  · rw [hslot, if_neg (not_not.mpr rfl)]
    exact scan_newest hs.shape h

/-! ## The owner of a byte -/

/-- Where no live region is around an address, `safety_lookup` answers with the slot of the granule: a region that lives
elsewhere in the granule or the last one that did; a contested granule resolves to none. -/
theorem Inv.lookup_none (hs : Inv s) (h : ∀ id, ¬ Covers (s.regions id) address) :
    s.safetyLookup address = if idFirst ≤ s.slotAt address then s.slotAt address else idUnowned := by
  simp only [safetyLookup]
  by_cases hcontested : s.slotAt address = idContested
  · obtain ⟨-, -, hwho⟩ := scan_fold s address (range' idFirst (s.regionNext - idFirst)) (fun c hc => by
      have hc := mem_range'_1.mp hc
      exact Shape.next_le hs.shape |>.trans_lt' (by omega)) (0, idUnowned)
    rw [if_neg (not_not.mpr hcontested), if_neg (by rw [hcontested]; decide)]
    rcases hwho with hwho | ⟨c, -, hcov, -⟩
    · rw [hwho]
    · exact absurd hcov (h c)
  · rw [if_pos hcontested]
    split
    · rfl
    · simp only [idContested, idFirst, idUnowned] at *
      omega

/-- Whose byte it is, by the identities of the regions: the newest live region around the byte owns it. Where there is
none, it counts as a byte of the region that its granule was given to last, if the granule is not shared. -/
structure OwnedBy (s : Registry) (address owner : ℕ) : Prop where
  newest : ∀ id, s.NewestAt id address → owner = (s.regions id).identity
  none : (∀ id, ¬ Covers (s.regions id) address) →
    owner = if idFirst ≤ s.slotAt address then (s.regions (s.slotAt address)).identity else 0

/-- `safety_owner_identity` is the identity of the owner. -/
theorem Inv.ownedBy (hs : Inv s) (address : ℕ) : s.OwnedBy address (s.safetyOwnerIdentity address) := by
  have hregion : ∀ id, s.Used id → ((s.safetyRegion id).map (·.identity)).getD 0 = (s.regions id).identity := by
    intro id hused
    rw [safetyRegion_eq_some (hused.lt_ids hs.shape)]
    rfl
  refine ⟨fun id h => ?_, fun h => ?_⟩
  · have hused := hs.shape.used_of_live h.1.1
    rw [safetyOwnerIdentity, hs.lookup_newest h, if_pos hused.1, hregion id hused]
  · rw [safetyOwnerIdentity, hs.lookup_none h]
    split
    · rename_i hslot
      have hused : s.Used (s.slotAt address) := by
        rw [slotAt] at hslot ⊢
        split at hslot
        · cases Nat.not_succ_le_zero _ hslot
        · rename_i hhigh
          rw [if_neg hhigh]
          exact hs.shape.used_of_slot hslot
      rw [hregion _ hused]
    · rfl

/-! ## The check -/

/-- The bytes of an access, as integers, lie inside the region. -/
def Inside (r : SafetyRegion) (base : ℕ) (offset size : BitVec 64) : Prop :=
  (r.start : ℤ) ≤ base + offset.toInt ∧ base + offset.toInt + size.toInt ≤ r.start + r.size

/-- A signed 64-bit value and its bit pattern. -/
theorem toInt_cases (x : BitVec 64) :
    (x.toInt = x.toNat ∧ x.toNat < 2 ^ 63) ∨
      (x.toInt = x.toNat - 2 ^ 64 ∧ 2 ^ 63 ≤ x.toNat ∧ x.toNat < 2 ^ 64) := by
  rw [BitVec.toInt_eq_toNat_cond]
  split <;> omega

/-- The wrap-around test and the unsigned comparisons of the check are the integer ones. -/
theorem access_iff_inside (offset : BitVec 64) {size : BitVec 64} (hbase : r.start ≤ base ∧ base < r.start + r.size)
    (hend : r.start + r.size ≤ 2 ^ 48) (hsize : 0 < size.toInt) :
    (¬ wrapped base offset ∧ size.toNat ≤ r.size ∧ r.start ≤ checkedAddress base offset ∧
      checkedAddress base offset - r.start ≤ r.size - size.toNat) ↔
      Inside r base offset size := by
  have hwidth : size.toInt = size.toNat := by
    rcases toInt_cases size with h | h <;> omega
  have haddress : checkedAddress base offset = (base + offset.toNat) % 2 ^ 64 := rfl
  simp only [wrapped, Inside, hwidth]
  generalize checkedAddress base offset = address at *
  rcases toInt_cases offset with ⟨hoff, hlt⟩ | ⟨hoff, hlt⟩ <;> rw [hoff]
  · -- a base below `2 ^ 48` and a non-negative offset cannot wrap
    rw [if_pos (by omega), decide_eq_true_eq]
    omega
  · rw [if_neg (by omega), decide_eq_true_eq]
    omega

/-- `mettle_safety_check` from a base whose newest live region is `id`. -/
theorem Inv.check_iff (hs : Inv s) (hdepth : s.allocatorDepth = 0) (h : s.NewestAt id base) (offset size : BitVec 64)
    (line : ℕ) :
    s.mettleSafetyCheck base offset size line = .ok () ↔
      size.toInt ≤ 0 ∨ Inside (s.regions id) base offset size := by
  have hused := hs.shape.used_of_live h.1.1
  have hsnap : s.safetySnapshot base = s.regions id := by
    rw [safetySnapshot, hs.lookup_newest h, if_pos hused.1,
      safetyRegion_eq_some (hused.lt_ids hs.shape), Option.getD_some]
  have hfail : s.safetyCheckFailed base offset size line (some (s.regions id)) ≠ .ok () := by
    rw [safetyCheckFailed, if_neg (not_not.mpr hdepth)]
    split
    · nofun
    · simp [h.1.1]
  simp only [mettleSafetyCheck]
  by_cases hsize : size.toInt ≤ 0
  · simp [hsize]
  have hend := (hs.shape.descriptors id).live_end h.1.1
  have haccess := access_iff_inside offset h.1.2 hend (not_le.mp hsize)
  rw [if_neg hsize, hsnap, h.1.1]
  simp only [hsize, false_or]
  split
  · rename_i hin
    simp [haccess.mp hin]
  · rename_i hout
    rw [haccess] at hout
    simp [hout, hfail]

end Mettle.Runtime.Registry

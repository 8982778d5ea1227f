import Mettle.Lib.Probe

/-!
# An index with tombstones

A table of words that names items by their numbers: `0` is a free word, `tomb` one whose item is gone, and
any other word is the number of an item plus one. A walk from the home of an item comes to its word. Putting
an item in, taking one out and renumbering one keep that (`OpenIndex`), and a walk that looks for an item
answers from the set of items (`OpenIndex.find`).
-/

open List

namespace Mettle.Lib

variable {tomb tombs s t k : ℕ} {home home' : ℕ → ℕ} {table held held' : List ℕ}

/-- A walk over taken words stays one when a word it does not look for changes to a taken one. -/
theorem Reaches.replace {v w : ℕ} (h : Reaches table s v) (ht : t < table.length) (hne : table.getD t 0 ≠ v)
    (hw : w ≠ 0) : Reaches (table.set t w) s v := by
  obtain ⟨d, hd, hbefore⟩ := h
  refine ⟨d, ?_, fun d' hd' => ?_⟩
  · rw [length_set, getD_set ht, if_neg, hd]
    intro heq
    rw [heq] at hd
    exact hne hd
  · rw [length_set, getD_set ht]
    split
    · exact hw
    · exact hbefore d' hd'

/-- A walk over taken words comes by a word. -/
def OnWalk (table : List ℕ) (s t : ℕ) : Prop :=
  ∃ d, t = (s + d) % table.length ∧ ∀ d' < d, table.getD ((s + d') % table.length) 0 ≠ 0

/-- A walk comes to what is put where it comes by. -/
theorem OnWalk.reaches_set {w : ℕ} (h : OnWalk table s t) (ht : t < table.length) (hw : w ≠ 0) :
    Reaches (table.set t w) s w := by
  obtain ⟨d, rfl, hbefore⟩ := h
  refine ⟨d, ?_, fun d' hd' => ?_⟩
  · rw [length_set, getD_set ht, if_pos rfl]
  · rw [length_set, getD_set ht]
    split
    · exact hw
    · exact hbefore d' hd'

/-- A word that names an item. -/
def isHeld (tomb w : ℕ) : Bool := w ≠ 0 ∧ w ≠ tomb

/-- The words of a table are those of the items held and `tombs` tombstones, and a walk from the home of an
item comes to its word. -/
structure OpenIndex (tomb : ℕ) (home : ℕ → ℕ) (table : List ℕ) (tombs : ℕ) (held : List ℕ) : Prop where
  words : (table.filter (isHeld tomb)).Perm (held.map (· + 1))
  count : table.count tomb = tombs
  once : held.Nodup
  small : ∀ k ∈ held, k + 1 < tomb
  room : held.length + tombs < table.length
  reaches : ∀ k ∈ held, Reaches table (home k % table.length) (k + 1)

/-- Replacing an element, up to the order. -/
theorem perm_set {α : Type*} {l : List α} (default w : α) (ht : t < l.length) :
    (l.getD t default :: l.set t w).Perm (w :: l) := by
  have hperm : (l.getD t w :: l.set t w).Perm (w :: l) := l.getD_set_perm_cons t w
  rwa [getD_eq_getElem _ _ ht, ← getD_eq_getElem _ default ht] at hperm

namespace OpenIndex

/-- The order of what is held does not matter. -/
theorem perm (h : OpenIndex tomb home table tombs held) (hperm : held.Perm held') :
    OpenIndex tomb home table tombs held' where
  words := h.words.trans (hperm.map _)
  count := h.count
  once := hperm.nodup_iff.mp h.once
  small k hk := h.small k (hperm.mem_iff.mpr hk)
  room := hperm.length_eq ▸ h.room
  reaches k hk := h.reaches k (hperm.mem_iff.mpr hk)

/-- Only the homes of what is held matter. -/
theorem congr_home (h : OpenIndex tomb home table tombs held) (hhome : ∀ k ∈ held, home' k = home k) :
    OpenIndex tomb home' table tombs held :=
  { h with reaches := fun k hk => hhome k hk ▸ h.reaches k hk }

/-- An index of free slots holds nothing. -/
theorem empty {capacity : ℕ} (hpos : 0 < capacity) (htomb : tomb ≠ 0) :
    OpenIndex tomb home (replicate capacity 0) 0 [] where
  words := by simp [isHeld]
  count := count_eq_zero.mpr fun hmem => htomb (eq_of_mem_replicate hmem)
  once := nodup_nil
  small k hk := absurd hk not_mem_nil
  room := by simpa using hpos
  reaches k hk := absurd hk not_mem_nil

section

variable (h : OpenIndex tomb home table tombs held)
include h

/-- A word that names an item names one that is held. -/
theorem mem_held (ht : t < table.length) (hword : isHeld tomb (table.getD t 0) = true) :
    ∃ k ∈ held, table.getD t 0 = k + 1 := by
  have hmem : table.getD t 0 ∈ table.filter (isHeld tomb) := by
    rw [mem_filter]
    refine ⟨?_, hword⟩
    rw [getD_eq_getElem _ _ ht]
    exact getElem_mem ht
  obtain ⟨k, hk, hkt⟩ := mem_map.mp (h.words.mem_iff.mp hmem)
  exact ⟨k, hk, hkt.symm⟩

/-- What is held is neither free nor a tombstone. -/
theorem isHeld_of_mem (hk : k ∈ held) : isHeld tomb (k + 1) = true := by
  have := h.small k hk
  unfold isHeld
  rw [decide_eq_true_iff]
  omega

/-- The taken words are those of the items and the tombstones. -/
theorem countP_taken (htomb : tomb ≠ 0) : table.countP (· ≠ 0) = held.length + tombs := by
  have hheld : table.countP (isHeld tomb) = held.length := by
    rw [countP_eq_length_filter, h.words.length_eq, length_map]
  have hsplit : ∀ l : List ℕ, l.countP (· ≠ 0) = l.countP (isHeld tomb) + l.count tomb := by
    intro l
    induction l with
    | nil => rfl
    | cons w l ih =>
      rw [countP_cons, countP_cons, count_cons, ih]
      unfold isHeld
      by_cases hzero : w = 0
      · simp [hzero, htomb.symm]
      · by_cases hw : w = tomb
        · simp [hw, htomb]
          omega
        · simp [hzero, hw]
          omega
  rw [hsplit, hheld, h.count]

theorem exists_free (htomb : tomb ≠ 0) : ∃ t < table.length, table.getD t 0 = 0 :=
  Lib.exists_free (by rw [h.countP_taken htomb]; exact h.room)

/-- A walk that looks for an item among those of one home comes to such an item or to a free word; then there
is none. -/
theorem find (htomb : tomb ≠ 0) (p : ℕ → Bool) (start : ℕ) :
    ∃ t < table.length,
      probe (fun s => table.getD s 0 = 0 ∨ (table.getD s 0 ≠ tomb ∧ p (table.getD s 0 - 1) = true)) table.length
          table.length (start % table.length) = some t ∧
        OnWalk table (start % table.length) t ∧
        ((table.getD t 0 = 0 ∧ ∀ k ∈ held, home k = start → p k = false) ∨
          ∃ k ∈ held, table.getD t 0 = k + 1 ∧ p k = true) := by
  obtain ⟨free, hfree, hzero⟩ := h.exists_free htomb
  have hpos : 0 < table.length := by omega
  obtain ⟨t, ht⟩ := Option.isSome_iff_exists.mp (probe_isSome
    (fun s => decide (table.getD s 0 = 0 ∨ (table.getD s 0 ≠ tomb ∧ p (table.getD s 0 - 1) = true)))
    (Nat.mod_lt start hpos) hfree (decide_eq_true (Or.inl hzero)))
  obtain ⟨d, hd, hstop, hbefore⟩ := probe_eq_some (Nat.mod_lt start hpos) ht
  have htlt : t < table.length := hd ▸ Nat.mod_lt _ hpos
  refine ⟨t, htlt, ht, ⟨d, hd, fun d' hd' hzero => ?_⟩, ?_⟩
  · exact (of_decide_eq_false (hbefore d' hd')) (Or.inl hzero)
  by_cases hword : table.getD t 0 = 0
  · refine Or.inl ⟨hword, fun k hk hhome => ?_⟩
    obtain ⟨d', hd', hbefore'⟩ := h.reaches k hk
    rw [hhome] at hd' hbefore'
    by_contra hp
    -- The word of the item would stop the walk before the free word, and the walk to it has no free word.
    rcases Nat.lt_trichotomy d d' with hlt | heq | hgt
    · exact hbefore' d hlt (hd ▸ hword)
    · rw [← heq, ← hd, hword] at hd'
      omega
    · have hgo := hbefore d' hgt
      rw [decide_eq_false_iff_not, hd'] at hgo
      have hsmall := h.small k hk
      refine hgo (Or.inr ⟨by omega, ?_⟩)
      exact Bool.not_eq_false _ ▸ hp
  · rcases of_decide_eq_true hstop with hzero' | ⟨htombs, hp⟩
    · exact absurd hzero' hword
    · obtain ⟨k, hk, hkt⟩ := h.mem_held htlt (decide_eq_true ⟨hword, htombs⟩)
      rw [hkt, Nat.add_sub_cancel] at hp
      exact Or.inr ⟨k, hk, hkt, hp⟩

/-- An item goes to the first word on its walk that is free or a tombstone. -/
theorem put (htomb : tomb ≠ 0) (hk : k ∉ held) (hsmall : k + 1 < tomb)
    (hroom : held.length + 1 + tombs < table.length) :
    ∃ t < table.length,
      probe (fun s => table.getD s 0 = 0 ∨ table.getD s 0 = tomb) table.length table.length
          (home k % table.length) = some t ∧
        OpenIndex tomb home (table.set t (k + 1)) (if table.getD t 0 = tomb then tombs - 1 else tombs)
          (k :: held) := by
  -- a free slot is left, so the probe ends
  obtain ⟨free, hfree, hzero⟩ := h.exists_free htomb
  have hpos : 0 < table.length := by omega
  obtain ⟨t, ht⟩ := Option.isSome_iff_exists.mp (probe_isSome
    (fun s => decide (table.getD s 0 = 0 ∨ table.getD s 0 = tomb)) (Nat.mod_lt (home k) hpos) hfree
    (decide_eq_true (Or.inl hzero)))
  obtain ⟨d, hd, hstop, hbefore⟩ := probe_eq_some (Nat.mod_lt (home k) hpos) ht
  have htlt : t < table.length := hd ▸ Nat.mod_lt _ hpos
  have hwalk : OnWalk table (home k % table.length) t :=
    ⟨d, hd, fun d' hd' hzero => of_decide_eq_false (hbefore d' hd') (Or.inl hzero)⟩
  have hstop := of_decide_eq_true hstop
  have hold : isHeld tomb (table.getD t 0) = false := by
    unfold isHeld
    rw [decide_eq_false_iff_not]
    rintro ⟨hne, hne'⟩
    exact hstop.elim hne hne'
  have hnew : isHeld tomb (k + 1) = true := decide_eq_true ⟨by omega, by omega⟩
  have hperm := perm_set 0 (k + 1) htlt
  refine ⟨t, htlt, ht, ?_, ?_, ?_, ?_, ?_, ?_⟩
  -- what is held afterwards: the new key in the place of a free slot or of a tombstone
  · have hfilter := hperm.filter (isHeld tomb)
    rw [filter_cons_of_neg (by rw [hold]; exact Bool.false_ne_true), filter_cons_of_pos hnew] at hfilter
    exact hfilter.trans (h.words.cons _)
  · have hcount := hperm.count_eq tomb
    rw [count_cons, count_cons, h.count] at hcount
    have hne : (k + 1 == tomb) = false := by
      rw [beq_eq_false_iff_ne]
      omega
    rw [hne] at hcount
    split
    · next heq =>
      simp only [heq, beq_self_eq_true, if_true] at hcount
      simp at hcount
      omega
    · next hneq =>
      have : (table.getD t 0 == tomb) = false := beq_eq_false_iff_ne.mpr hneq
      rw [this] at hcount
      simpa using hcount
  · exact nodup_cons.mpr ⟨hk, h.once⟩
  · intro k' hk'
    rcases mem_cons.mp hk' with rfl | hk'
    · exact hsmall
    · exact h.small k' hk'
  · rw [length_set, length_cons]
    split <;> omega
  -- the keys held before are still reached, since a slot that was passed is not emptied
  · intro k' hk'
    rw [length_set]
    rcases mem_cons.mp hk' with rfl | hk'
    · exact hwalk.reaches_set htlt (by omega)
    · refine (h.reaches k' hk').replace htlt ?_ (by omega)
      intro heq
      rw [heq, h.isHeld_of_mem hk'] at hold
      cases hold

/-- The word of an item becomes a tombstone. -/
theorem erase (htomb : tomb ≠ 0) (hk : k ∈ held) (ht : t < table.length) (hword : table.getD t 0 = k + 1) :
    OpenIndex tomb home (table.set t tomb) (tombs + 1) (held.erase k) := by
  have hperm := perm_set 0 tomb ht
  rw [hword] at hperm
  have hheld := h.isHeld_of_mem hk
  have hgone : isHeld tomb tomb = false := decide_eq_false fun hne => hne.2 rfl
  have hsplit := perm_cons_erase hk
  refine ⟨?_, ?_, h.once.erase k, fun k' hk' => h.small k' (mem_of_mem_erase hk'), ?_, ?_⟩
  · have hfilter := hperm.filter (isHeld tomb)
    rw [filter_cons_of_pos hheld, filter_cons_of_neg (by rw [hgone]; exact Bool.false_ne_true)] at hfilter
    have hmap := hsplit.map (· + 1)
    exact (perm_cons _).mp (hfilter.trans (h.words.trans hmap))
  · have hcount := hperm.count_eq tomb
    have hne : (k + 1 == tomb) = false := by
      have := h.small k hk
      rw [beq_eq_false_iff_ne]
      omega
    rw [count_cons, count_cons, h.count, hne, beq_self_eq_true] at hcount
    simpa using hcount
  · have hlength := hsplit.length_eq
    have hroom := h.room
    rw [length_cons] at hlength
    rw [length_set]
    omega
  · intro k' hk'
    have hne : k' ≠ k := fun heq => (h.once.mem_erase_iff.mp hk').1 heq
    rw [length_set]
    apply (h.reaches k' (mem_of_mem_erase hk')).replace ht _ htomb
    omega

/-- An item gets another number. -/
theorem renumber {new : ℕ} (hk : k ∈ held) (hnew : new ∉ held) (hsmall : new + 1 < tomb) (ht : t < table.length)
    (hword : table.getD t 0 = k + 1) (hwalk : OnWalk table (home k % table.length) t) (hhome : home' new = home k)
    (hother : ∀ k' ∈ held, k' ≠ k → home' k' = home k') :
    OpenIndex tomb home' (table.set t (new + 1)) tombs (new :: held.erase k) := by
  have hperm := perm_set 0 (new + 1) ht
  rw [hword] at hperm
  have hheld := h.isHeld_of_mem hk
  have hnewHeld : isHeld tomb (new + 1) = true := decide_eq_true ⟨by omega, by omega⟩
  have hsplit := perm_cons_erase hk
  refine ⟨?_, ?_, ?_, ?_, ?_, ?_⟩
  · have hfilter := hperm.filter (isHeld tomb)
    rw [filter_cons_of_pos hheld, filter_cons_of_pos hnewHeld] at hfilter
    have hmap := (hsplit.map (· + 1)).cons (new + 1)
    have hwords := hfilter.trans ((h.words.cons _).trans hmap)
    exact (perm_cons _).mp (hwords.trans (Perm.swap _ _ _))
  · have hcount := hperm.count_eq tomb
    have hne : (k + 1 == tomb) = false := by
      have := h.small k hk
      rw [beq_eq_false_iff_ne]
      omega
    have hne' : (new + 1 == tomb) = false := by
      rw [beq_eq_false_iff_ne]
      omega
    rw [count_cons, count_cons, h.count, hne, hne'] at hcount
    simpa using hcount
  · exact nodup_cons.mpr ⟨fun hmem => hnew (mem_of_mem_erase hmem), h.once.erase k⟩
  · intro k' hk'
    rcases mem_cons.mp hk' with rfl | hk'
    · exact hsmall
    · exact h.small k' (mem_of_mem_erase hk')
  · have hlength := hsplit.length_eq
    rw [length_cons] at hlength
    rw [length_set, length_cons, ← hlength]
    exact h.room
  -- the new key stands in the slot of the old one, which its probe reaches
  · intro k' hk'
    rw [length_set]
    rcases mem_cons.mp hk' with rfl | hk'
    · rw [hhome]
      exact hwalk.reaches_set ht (by omega)
    · have hmem := mem_of_mem_erase hk'
      have hne : k' ≠ k := fun heq => (h.once.mem_erase_iff.mp hk').1 heq
      rw [hother k' hmem hne]
      apply (h.reaches k' hmem).replace ht _ (by omega)
      omega

end

end OpenIndex

end Mettle.Lib

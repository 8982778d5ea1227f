import Mathlib

/-!
# Linear probing

Walking a table from a slot to the next, around its end, until a slot is the one looked for or free.
The walk stops when there is such a slot at all.
-/

open List

namespace Mettle.Lib

variable {stop : ℕ → Bool} {capacity fuel s t : ℕ}

/-- The first slot from `s` on that stops the walk, `none` after `fuel` slots. -/
def probe (stop : ℕ → Bool) (capacity : ℕ) : ℕ → ℕ → Option ℕ
  | 0, _ => none
  | fuel + 1, s => if stop s then some s else probe stop capacity fuel ((s + 1) % capacity)

/-- The walk ends on the first slot that stops it. -/
theorem probe_eq_some (hs : s < capacity) (h : probe stop capacity fuel s = some t) :
    ∃ d, t = (s + d) % capacity ∧ stop t = true ∧ ∀ d' < d, stop ((s + d') % capacity) = false := by
  induction fuel generalizing s with
  | zero => cases h
  | succ fuel ih =>
    rw [probe] at h
    split at h
    · rename_i hstop
      cases h
      exact ⟨0, (Nat.mod_eq_of_lt hs).symm, hstop, by simp⟩
    · rename_i hgo
      obtain ⟨d, ht, hstop, hbefore⟩ := ih (Nat.mod_lt _ (by omega)) h
      refine ⟨d + 1, ?_, hstop, fun d' hd' => ?_⟩
      · rw [ht, Nat.mod_add_mod, show s + 1 + d = s + (d + 1) by omega]
      · rcases d' with _ | d'
        · rw [Nat.add_zero, Nat.mod_eq_of_lt hs]
          simpa using hgo
        · have := hbefore d' (by omega)
          rwa [Nat.mod_add_mod, show s + 1 + d' = s + (d' + 1) by omega] at this

/-- A slot `d` steps ahead stops the walk. -/
theorem probe_isSome_of_ahead {d : ℕ} (hs : s < capacity) (hd : d < fuel)
    (hstop : stop ((s + d) % capacity) = true) : (probe stop capacity fuel s).isSome := by
  induction fuel generalizing s d with
  | zero => omega
  | succ fuel ih =>
    rw [probe]
    split
    · rfl
    · rename_i hgo
      rcases Nat.eq_zero_or_pos d with rfl | hpos
      · rw [Nat.add_zero, Nat.mod_eq_of_lt hs] at hstop
        exact absurd hstop hgo
      · refine ih (d := d - 1) (Nat.mod_lt _ (by omega)) (by omega) ?_
        rw [Nat.mod_add_mod, show s + 1 + (d - 1) = s + d by omega]
        exact hstop

/-- The walk over the whole table finds a slot that stops it. -/
theorem probe_isSome (stop : ℕ → Bool) (hs : s < capacity) (ht : t < capacity) (hstop : stop t = true) :
    (probe stop capacity capacity s).isSome := by
  refine probe_isSome_of_ahead (d := (t + (capacity - s)) % capacity) hs (Nat.mod_lt _ (by omega)) ?_
  rw [Nat.add_mod_mod, show s + (t + (capacity - s)) = t + capacity by omega, Nat.add_mod_right,
    Nat.mod_eq_of_lt ht]
  exact hstop

variable {table : List ℕ} {v : ℕ}

/-- A table with fewer taken slots than slots has a free one. -/
theorem exists_free (h : table.countP (· ≠ 0) < table.length) : ∃ t < table.length, table.getD t 0 = 0 := by
  by_contra hfull
  push Not at hfull
  refine absurd (countP_eq_length.mpr fun x hx => ?_) h.ne
  obtain ⟨t, ht, rfl⟩ := mem_iff_getElem.mp hx
  have := hfull t ht
  rw [getD_eq_getElem?_getD, List.getElem?_eq_getElem ht] at this
  simpa using this

/-- Taking a free slot. -/
theorem countP_set_free (ht : t < table.length) (hfree : table.getD t 0 = 0) (hv : v ≠ 0) :
    (table.set t v).countP (· ≠ 0) = table.countP (· ≠ 0) + 1 := by
  have hold : table[t] = 0 := by
    rw [getD_eq_getElem?_getD, List.getElem?_eq_getElem ht] at hfree
    exact hfree
  rw [countP_set ht]
  simp [hold, hv]

/-- A walk from `s` over taken slots comes to one that holds `v`. -/
def Reaches (table : List ℕ) (s v : ℕ) : Prop :=
  ∃ d, table.getD ((s + d) % table.length) 0 = v ∧
    ∀ d' < d, table.getD ((s + d') % table.length) 0 ≠ 0

theorem getD_set {x : ℕ} (ht : t < table.length) :
    (table.set t v).getD x 0 = if x = t then v else table.getD x 0 := by
  rw [getD_eq_getElem?_getD, getD_eq_getElem?_getD, List.getElem?_set]
  by_cases hx : x = t
  · subst hx
    simp [ht]
  · rw [if_neg (fun h => hx h.symm), if_neg hx]

/-- Taking a free slot leaves what a walk comes to. -/
theorem Reaches.set {w : ℕ} (h : Reaches table s v) (ht : t < table.length) (hfree : table.getD t 0 = 0) (hv : v ≠ 0)
    (hw : w ≠ 0) : Reaches (table.set t w) s v := by
  obtain ⟨d, hd, hbefore⟩ := h
  refine ⟨d, ?_, fun d' hd' => ?_⟩
  · rw [length_set, getD_set ht, if_neg, hd]
    intro heq
    rw [heq] at hd
    exact hv (hd.symm.trans hfree)
  · rw [length_set, getD_set ht]
    split
    · exact hw
    · exact hbefore d' hd'

/-- The walk comes to what was put in the first free slot. -/
theorem reaches_probe (hs : s < table.length) (h : probe (fun s => table.getD s 0 = 0) table.length fuel s = some t)
    (hv : v ≠ 0) : Reaches (table.set t v) s v := by
  obtain ⟨d, rfl, -, hbefore⟩ := probe_eq_some hs h
  have ht : (s + d) % table.length < table.length := Nat.mod_lt _ (by omega)
  refine ⟨d, ?_, fun d' hd' => ?_⟩
  · rw [length_set, getD_set ht, if_pos rfl]
  · rw [length_set, getD_set ht]
    split
    · exact hv
    · simpa using hbefore d' hd'

end Mettle.Lib

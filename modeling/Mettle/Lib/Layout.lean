import Mathlib

/-!
# Rounding up to an alignment

`roundUp n a` is the least multiple of `a` from `n` on. A sum that wraps around a modulus which the
alignment divides rounds up to the same residue.
-/

open List

namespace Mettle.Lib

section

variable {n m a w : ℕ}

/-- The least multiple of `a` from `n` on. -/
def roundUp (n a : ℕ) : ℕ := a * ((n + a - 1) / a)

theorem dvd_roundUp (n a : ℕ) : a ∣ roundUp n a := Dvd.intro _ rfl

/-- Nothing is below the least multiple but what is below `n`. -/
theorem roundUp_le_iff (ha : 0 < a) (hm : a ∣ m) : roundUp n a ≤ m ↔ n ≤ m := by
  obtain ⟨k, rfl⟩ := hm
  rw [roundUp, ← Nat.ceilDiv_eq_add_pred_div]
  rw [Nat.mul_le_mul_left_iff ha]
  exact ceilDiv_le_iff_le_mul ha

theorem le_roundUp (ha : 0 < a) : n ≤ roundUp n a := (roundUp_le_iff ha (dvd_roundUp n a)).mp le_rfl

theorem roundUp_le (ha : 0 < a) (hm : a ∣ m) (h : n ≤ m) : roundUp n a ≤ m := (roundUp_le_iff ha hm).mpr h

theorem roundUp_of_dvd (ha : 0 < a) (h : a ∣ n) : roundUp n a = n :=
  le_antisymm (roundUp_le ha h le_rfl) (le_roundUp ha)

/-- Rounding up by a remainder, as code does it. -/
theorem roundUp_eq_sub (ha : 0 < a) : roundUp n a = (n + a - 1) - (n + a - 1) % a := by
  have hsplit := Nat.div_add_mod (n + a - 1) a
  rw [roundUp]
  omega

theorem roundUp_lt (ha : 0 < a) : roundUp n a < n + a := by
  rw [roundUp_eq_sub ha]
  omega

/-- Rounding up the residue is the residue of rounding up. -/
theorem mod_sub_mod_eq (n : ℕ) (h : a ∣ w) : n % w - n % w % a = (n - n % a) % w := by
  rw [Nat.mod_mod_of_dvd n h]
  obtain ⟨k, rfl⟩ := h
  have hdiv : n - n % a = a * (n / a) := by
    have hsplit := Nat.div_add_mod n a
    omega
  rw [hdiv, Nat.mul_mod_mul_left, Nat.mod_mul]
  omega

end

/-!
## Bump allocation

Areas handed out one after another from a growing pointer: every area starts at or after the pointer
and moves it to its end or beyond, so no two areas overlap.
-/

section

variable {ι α : Type*} [LinearOrder α]

/-- The areas `[lo i, hi i)` of the owners lie between `base` and `next` and do not overlap. -/
structure Layout (owner : ι → Prop) (lo hi : ι → α) (base next : α) : Prop where
  base_le_next : base ≤ next
  base_le : ∀ i, owner i → base ≤ lo i
  le_next : ∀ i, owner i → hi i ≤ next
  apart : ∀ i j, owner i → owner j → i ≠ j → hi i ≤ lo j ∨ hi j ≤ lo i

variable {owner owner' : ι → Prop} {lo hi lo' hi' : ι → α} {base next next' : α} {k : ι}

theorem Layout.empty (howner : ∀ i, ¬ owner i) (base : α) : Layout owner lo hi base base :=
  ⟨le_rfl, fun i h => absurd h (howner i), fun i h => absurd h (howner i),
    fun i _ h => absurd h (howner i)⟩

/-- One more area. -/
theorem Layout.push (h : Layout owner lo hi base next)
    (howner : ∀ i, owner' i → i = k ∨ (i ≠ k ∧ owner i ∧ lo' i = lo i ∧ hi' i = hi i))
    (hlo : next ≤ lo' k) (hhi : hi' k ≤ next') (hnext : next ≤ next') :
    Layout owner' lo' hi' base next' := by
  refine ⟨h.base_le_next.trans hnext, fun i hi => ?_, fun i hi => ?_, fun i j hi hj hij => ?_⟩
  · rcases howner i hi with rfl | ⟨-, hold, hlo', -⟩
    · exact h.base_le_next.trans hlo
    · exact hlo' ▸ h.base_le i hold
  · rcases howner i hi with rfl | ⟨-, hold, -, hhi'⟩
    · exact hhi
    · exact hhi' ▸ (h.le_next i hold).trans hnext
  · rcases howner i hi with rfl | ⟨-, hold, hlo', hhi'⟩
    · rcases howner j hj with rfl | ⟨-, hold, -, hhi'⟩
      · exact absurd rfl hij
      · exact .inr (hhi' ▸ (h.le_next j hold).trans hlo)
    · rcases howner j hj with rfl | ⟨-, holdj, hloj, hhij⟩
      · exact .inl (hhi' ▸ (h.le_next i hold).trans hlo)
      · rw [hlo', hhi', hloj, hhij]
        exact h.apart i j hold holdj hij

/-- Fewer owners, unmoved areas. -/
theorem Layout.mono (h : Layout owner lo hi base next)
    (howner : ∀ i, owner' i → owner i ∧ lo' i = lo i ∧ hi' i = hi i) :
    Layout owner' lo' hi' base next := by
  refine ⟨h.base_le_next, fun i hi => ?_, fun i hi => ?_, fun i j hi hj hij => ?_⟩
  · obtain ⟨hold, hlo, -⟩ := howner i hi
    exact hlo ▸ h.base_le i hold
  · obtain ⟨hold, -, hhi⟩ := howner i hi
    exact hhi ▸ h.le_next i hold
  · obtain ⟨holdi, hloi, hhii⟩ := howner i hi
    obtain ⟨holdj, hloj, hhij⟩ := howner j hj
    rw [hloi, hhii, hloj, hhij]
    exact h.apart i j holdi holdj hij

end

/-!
## Lists laid out in slots

A list that is the concatenation of slots, and where each slot starts in it.
-/

variable {α : Type*} (slot : ℕ → List α)

/-- Where a slot starts. -/
def slotStart (i : ℕ) : ℕ := ((List.range i).flatMap slot).length

/-- The next slot starts behind the one before. -/
theorem slotStart_succ (i : ℕ) : slotStart slot (i + 1) = slotStart slot i + (slot i).length := by
  rw [slotStart, range_succ, flatMap_append, length_append, flatMap_singleton]
  rfl

theorem slotStart_mono {i j : ℕ} (h : i ≤ j) : slotStart slot i ≤ slotStart slot j := by
  induction h with
  | refl => exact le_rfl
  | step _ ih =>
    rw [slotStart_succ]
    omega

variable {slot}

/-- The entries of a slot stand behind its start. -/
theorem getElem?_slots {n i k : ℕ} (hi : i < n) (hk : k < (slot i).length) :
    ((range n).flatMap slot)[slotStart slot i + k]? = (slot i)[k]? := by
  induction n with
  | zero => omega
  | succ n ih =>
    rw [range_succ, flatMap_append, flatMap_singleton]
    rcases Nat.lt_or_eq_of_le (Nat.lt_succ_iff.mp hi) with hlt | rfl
    · have hin : slotStart slot i + k < ((range n).flatMap slot).length := by
        have hmono := slotStart_mono slot hlt
        rw [slotStart_succ] at hmono
        exact (by omega : slotStart slot i + k < slotStart slot n)
      rw [List.getElem?_append_left hin]
      exact ih hlt
    · show ((range i).flatMap slot ++ slot i)[((range i).flatMap slot).length + k]? = _
      rw [List.getElem?_append_right (Nat.le_add_right _ _), Nat.add_sub_cancel_left]

/-- Every position belongs to a slot. -/
theorem slot_of_lt {n p : ℕ} (hp : p < slotStart slot n) :
    ∃ i k, i < n ∧ k < (slot i).length ∧ p = slotStart slot i + k := by
  induction n with
  | zero => exact absurd hp (Nat.not_lt_zero p)
  | succ n ih =>
    rcases Nat.lt_or_ge p (slotStart slot n) with hlt | hge
    · obtain ⟨i, k, hi, hk, heq⟩ := ih hlt
      exact ⟨i, k, by omega, hk, heq⟩
    · rw [slotStart_succ] at hp
      exact ⟨n, p - slotStart slot n, by omega, by omega, by omega⟩

end Mettle.Lib

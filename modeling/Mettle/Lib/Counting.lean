import Mathlib

/-!
# Counting the cells of a table

How many cells of a finite index set hold a given value, and how a single write changes that number.
-/

open Function

namespace Mettle.Lib

variable {ι α : Type*} [DecidableEq α]

/-- The number of indices of `S` at which `f` has the value `a`. -/
def countAt (S : Finset ι) (f : ι → α) (a : α) : ℕ := (S.filter (fun i => f i = a)).card

/-- A write moves one cell from the count of its old value to the count of its new one. -/
theorem countAt_update [DecidableEq ι] {S : Finset ι} {i : ι} (hi : i ∈ S) (f : ι → α) (v a : α) :
    countAt S (update f i v) a + (if f i = a then 1 else 0)
      = countAt S f a + (if v = a then 1 else 0) := by
  -- off the written cell the two filters agree
  have hrest : (S.erase i).filter (fun j => update f i v j = a)
      = (S.erase i).filter (fun j => f j = a) := by
    refine Finset.filter_congr fun j hj => ?_
    rw [update_of_ne (Finset.ne_of_mem_erase hj)]
  have hsplit : ∀ g : ι → α, countAt S g a
      = (if g i = a then 1 else 0) + ((S.erase i).filter (fun j => g j = a)).card := by
    intro g
    have hins : S.filter (fun j => g j = a)
        = (insert i (S.erase i)).filter (fun j => g j = a) := by rw [Finset.insert_erase hi]
    rw [countAt, hins, Finset.filter_insert]
    by_cases hg : g i = a
    · rw [if_pos hg, if_pos hg, Finset.card_insert_of_notMem (by simp)]
      omega
    · rw [if_neg hg, if_neg hg, Nat.zero_add]
  rw [hsplit f, hsplit (update f i v), hrest, update_self]
  omega

variable {S : Finset ι} {f : ι → α} {a : α}

/-- A cell that holds the value makes the count positive. -/
theorem countAt_pos {i : ι} (hi : i ∈ S) (h : f i = a) : 0 < countAt S f a :=
  Finset.card_pos.mpr ⟨i, Finset.mem_filter.mpr ⟨hi, h⟩⟩

/-- A count of zero says that no cell holds the value. -/
theorem countAt_eq_zero_iff : countAt S f a = 0 ↔ ∀ i ∈ S, f i ≠ a := by
  rw [countAt, Finset.card_eq_zero, Finset.filter_eq_empty_iff]

end Mettle.Lib

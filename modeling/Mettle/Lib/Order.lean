import Mathlib

/-!
# Relations without cycles

A relation on the elements of a list. Without a cycle there is an element that nothing precedes, and a
part of the list that is closed under predecessors holds no element of a cycle.
-/

open Function

namespace Mettle.Lib

section

variable {α : Type*} {r : α → α → Prop} {l : List α}

/-- A relation between elements of a list. -/
def Within (l : List α) (r : α → α → Prop) (a b : α) : Prop := a ∈ l ∧ b ∈ l ∧ r a b

/-- The elements of the list are on no cycle of the relation. -/
def Acyclic (l : List α) (r : α → α → Prop) : Prop := ∀ a, ¬ Relation.TransGen (Within l r) a a

theorem Acyclic.mono {l' : List α} (h : Acyclic l r) (hsub : ∀ a ∈ l', a ∈ l) : Acyclic l' r :=
  fun a hcycle => h a (Relation.TransGen.mono
    (fun _ _ hab => ⟨hsub _ hab.1, hsub _ hab.2.1, hab.2.2⟩) _ _ hcycle)

/-- Without a cycle, nothing precedes some element. -/
theorem Acyclic.exists_first (h : Acyclic l r) (hne : l ≠ []) : ∃ b ∈ l, ∀ a ∈ l, ¬ r a b := by
  let below : { a // a ∈ l } → { a // a ∈ l } → Prop :=
    fun a b => Relation.TransGen (Within l r) a.1 b.1
  have hfinite : Finite { a // a ∈ l } := l.finite_toSet
  have hirrefl : Std.Irrefl below := ⟨fun a => h a.1⟩
  have hwf : WellFounded below := Finite.wellFounded_of_trans_of_irrefl below
  obtain ⟨a₀, ha₀⟩ := List.exists_mem_of_ne_nil l hne
  obtain ⟨b, -, hmin⟩ := hwf.has_min Set.univ ⟨⟨a₀, ha₀⟩, trivial⟩
  refine ⟨b.1, b.2, fun a ha hab => ?_⟩
  exact hmin ⟨a, ha⟩ trivial (Relation.TransGen.single ⟨ha, b.2, hab⟩)

/-- Elements taken in an order in which each comes after all that precede it are on no cycle. -/
theorem not_cycle_of_ordered {taken : List α}
    (hordered : ∀ before a after, taken = before ++ a :: after → ∀ b ∈ l, r b a → b ∈ before)
    {a : α} (ha : a ∈ taken) : ¬ Relation.TransGen (Within l r) a a := by
  obtain ⟨before, after, heq⟩ := List.append_of_mem ha
  clear ha
  generalize hn : before.length = n
  induction n using Nat.strong_induction_on generalizing before a after with
  | _ n ih =>
    intro hcycle
    obtain ⟨b, hstep, hback⟩ : ∃ b, Within l r b a ∧ Relation.TransGen (Within l r) b b := by
      rcases Relation.TransGen.tail'_iff.mp hcycle with ⟨b, hab, hba⟩
      exact ⟨b, hba, Relation.TransGen.head' hba hab⟩
    have hmem := hordered before a after heq b hstep.1 hstep.2.2
    obtain ⟨first, second, hsplit⟩ := List.append_of_mem hmem
    refine ih first.length ?_ first (second ++ a :: after) ?_ rfl hback
    · rw [← hn, hsplit]
      simp
    · rw [heq, hsplit]
      simp

/-- A cycle lies within the elements that are on cycles. -/
theorem cycle_within {l' : List α}
    (hmem : ∀ a ∈ l, Relation.TransGen (Within l r) a a → a ∈ l') {a b : α}
    (hab : Relation.TransGen (Within l r) a b) (hba : Relation.TransGen (Within l r) b a) :
    Relation.TransGen (Within l' r) a b := by
  induction hab with
  | single h =>
    exact Relation.TransGen.single ⟨hmem _ h.1 (Relation.TransGen.head h hba),
      hmem _ h.2.1 (hba.tail h), h.2.2⟩
  | tail hac h ih =>
    have hca := Relation.TransGen.head h hba
    refine (ih hca).tail ⟨hmem _ h.1 (hca.trans hac), hmem _ h.2.1 ?_, h.2.2⟩
    exact (hba.trans hac).tail h

end

/-!
## Forests of parent links

A union-find without ranks: a node points to its parent, a root to itself, and two trees are joined by
linking one root below the other. The root of a node is found by following links often enough; joining
two trees makes one more link necessary and renames one root.
-/

variable {α : Type*} {parent : α → α} {u v x : α} {k n : ℕ}

/-- `k` links lead from every node to its root. -/
def Rooted (parent : α → α) (k : ℕ) : Prop := ∀ x, parent (parent^[k] x) = parent^[k] x

/-- In the beginning each element is its own root. -/
theorem rooted_id : Rooted (fun x : α => x) 0 := fun _ => rfl

/-- More links than needed lead to the same root. -/
theorem Rooted.iterate_eq (h : Rooted parent k) (hn : k ≤ n) (x : α) :
    parent^[n] x = parent^[k] x := by
  induction n, hn using Nat.le_induction with
  | base => rfl
  | succ n _ ih => rw [iterate_succ_apply', ih, h]

/-- Enough steps lead to a root. -/
theorem Rooted.root (h : Rooted parent k) (hn : k ≤ n) (x : α) :
    parent (parent^[n] x) = parent^[n] x := by
  rw [h.iterate_eq hn, h]

variable [DecidableEq α]

/-- A node of another tree keeps its path. -/
theorem iterate_link_of_ne (hv : parent v = v) (h : parent^[n] x ≠ v) :
    (update parent v u)^[n] x = parent^[n] x := by
  induction n with
  | zero => rfl
  | succ n ih =>
    rw [iterate_succ_apply'] at h ⊢
    have hne : parent^[n] x ≠ v := fun heq => h (by rw [heq, hv])
    rw [ih hne, update_of_ne hne, iterate_succ_apply']

/-- A node of the linked tree goes on to the other root. -/
theorem iterate_link_of_eq (hu : parent u = u) (huv : u ≠ v) (hv : parent v = v)
    (h : parent^[n] x = v) : (update parent v u)^[n + 1] x = u := by
  induction n with
  | zero =>
    obtain rfl : x = v := h
    exact update_self ..
  | succ n ih =>
    rw [iterate_succ_apply']
    by_cases hn : parent^[n] x = v
    · rw [ih hn, update_of_ne huv, hu]
    · rw [iterate_succ_apply', iterate_link_of_ne hv hn, update_of_ne hn,
        ← iterate_succ_apply' parent, h, update_self]

/-- Linking the root `v` below the root `u` renames it. -/
theorem Rooted.iterate_link (h : Rooted parent k) (hu : parent u = u) (huv : u ≠ v)
    (hv : parent v = v) (hn : k < n) (x : α) :
    (update parent v u)^[n] x = if parent^[n] x = v then u else parent^[n] x := by
  split
  · rename_i heq
    rw [h.iterate_eq (Nat.le_of_lt hn), ← h.iterate_eq (Nat.le_sub_one_of_lt hn)] at heq
    rw [← Nat.sub_add_cancel (Nat.one_le_of_lt hn)]
    exact iterate_link_of_eq hu huv hv heq
  · rename_i hne
    exact iterate_link_of_ne hv hne

/-- Linking two roots makes the ways longer by one. -/
theorem Rooted.link (h : Rooted parent k) (hu : parent u = u) (huv : u ≠ v) (hv : parent v = v) :
    Rooted (update parent v u) (k + 1) := by
  intro x
  rw [h.iterate_link hu huv hv (Nat.lt_succ_self k)]
  split
  · rw [update_of_ne huv, hu]
  · rename_i hne
    rw [update_of_ne hne, h.root (Nat.le_succ k)]

end Mettle.Lib

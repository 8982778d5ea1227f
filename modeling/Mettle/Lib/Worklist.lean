import Mathlib

/-!
# Marking with a worklist

A node is marked when it is put on the worklist, and every node of the list has its successors marked in turn. The
list is never shortened: it ends as the nodes that the first ones reach, each of them once.
-/

open List

namespace Mettle.Lib

/-- The worklist, and the nodes that were ever put on it. -/
structure Worklist (ι : Type*) where
  items : List ι := []
  marked : ι → Bool := fun _ => false

namespace Worklist

variable {ι : Type*} [DecidableEq ι]

/-- Put a node on the list, if it was not on it. -/
def mark (w : Worklist ι) (x : ι) : Worklist ι :=
  if w.marked x then w else ⟨w.items ++ [x], Function.update w.marked x true⟩

/-- Mark the successors of the nodes, one after the other from `processed` on. -/
def run (next : ι → List ι) : ℕ → ℕ → Worklist ι → Option (Worklist ι)
  | fuel, processed, w =>
    match w.items[processed]? with
    | none => some w
    | some x =>
      match fuel with
      | 0 => none
      | fuel + 1 => run next fuel (processed + 1) ((next x).foldl mark w)

/-- The list holds the marked nodes, each once. -/
structure Ok (w : Worklist ι) : Prop where
  nodup : w.items.Nodup
  marked : ∀ x, w.marked x = true ↔ x ∈ w.items

variable {w w' : Worklist ι} {x y : ι} {xs : List ι} {next : ι → List ι} {fuel processed : ℕ}

omit [DecidableEq ι] in
theorem Ok.empty : Ok ({} : Worklist ι) where
  nodup := List.nodup_nil
  marked x := by
    show false = true ↔ x ∈ []
    simp

theorem mark_of_marked (h : w.marked x = true) : w.mark x = w := if_pos h

theorem Ok.mem_mark (hw : w.Ok) : y ∈ (w.mark x).items ↔ y ∈ w.items ∨ y = x := by
  by_cases h : w.marked x = true
  · rw [mark_of_marked h]
    refine ⟨Or.inl, fun hy => hy.elim id fun heq => ?_⟩
    exact heq ▸ (hw.marked x).mp h
  · rw [mark, if_neg h, mem_append, mem_singleton]

theorem Ok.mark (hw : w.Ok) (x : ι) : (w.mark x).Ok := by
  by_cases h : w.marked x = true
  · rwa [mark_of_marked h]
  · have hnot : x ∉ w.items := fun hx => h ((hw.marked x).mpr hx)
    refine ⟨?_, fun y => ?_⟩
    · rw [Worklist.mark, if_neg h]
      exact nodup_append.mpr ⟨hw.nodup, nodup_singleton x, fun a ha b hb => by
        rw [mem_singleton.mp hb]
        rintro rfl
        exact hnot ha⟩
    · rw [hw.mem_mark, Worklist.mark, if_neg h]
      show Function.update w.marked x true y = true ↔ _
      rw [Function.update_apply]
      split
      · rename_i heq
        exact ⟨fun _ => Or.inr heq, fun _ => rfl⟩
      · rename_i hne
        rw [hw.marked]
        exact ⟨Or.inl, fun hy => hy.resolve_right hne⟩

/-- Marking several elements keeps the worklist in order. -/
theorem Ok.foldl_mark (hw : w.Ok) (xs : List ι) :
    (xs.foldl Worklist.mark w).Ok ∧ ∀ y, y ∈ (xs.foldl Worklist.mark w).items ↔ y ∈ w.items ∨ y ∈ xs := by
  induction xs generalizing w with
  | nil => exact ⟨hw, fun y => by simp⟩
  | cons x xs ih =>
    obtain ⟨hok, hmem⟩ := ih (hw.mark x)
    refine ⟨hok, fun y => ?_⟩
    rw [foldl_cons, hmem, hw.mem_mark, mem_cons, or_assoc]

/-- The list only grows at its end. -/
theorem items_prefix_mark (w : Worklist ι) (x : ι) : w.items <+: (w.mark x).items := by
  unfold mark
  split
  · exact prefix_rfl
  · exact prefix_append _ _

/-- Elements are added at the end. -/
theorem items_prefix_foldl (w : Worklist ι) (xs : List ι) : w.items <+: (xs.foldl mark w).items := by
  induction xs generalizing w with
  | nil => exact prefix_rfl
  | cons x xs ih => exact (items_prefix_mark w x).trans (ih (w.mark x))

/-- There are no more elements than could be. -/
theorem Ok.length_le (hw : w.Ok) {U : Finset ι} (hU : ∀ x ∈ w.items, x ∈ U) : w.items.length ≤ U.card := by
  rw [← toFinset_card_of_nodup hw.nodup]
  exact Finset.card_le_card fun x hx => hU x (mem_toFinset.mp hx)

/-- What the run keeps: every node comes from one of `start`, and the successors of the nodes before `processed`
are on the list. -/
structure Inv (next : ι → List ι) (start : List ι) (U : Finset ι) (processed : ℕ) (w : Worklist ι) : Prop extends
    w.Ok where
  start_mem : ∀ x ∈ start, x ∈ w.items
  reached : ∀ y ∈ w.items, ∃ x ∈ start, Relation.ReflTransGen (fun x y => y ∈ next x) x y
  expanded : ∀ k x, k < processed → w.items[k]? = some x → ∀ y ∈ next x, y ∈ w.items
  inside : ∀ x ∈ w.items, x ∈ U

variable {start : List ι} {U : Finset ι}

/-- A round of the loop keeps its invariant. -/
theorem Inv.step (h : Inv next start U processed w) (hx : w.items[processed]? = some x)
    (hU : ∀ y ∈ next x, y ∈ U) : Inv next start U (processed + 1) ((next x).foldl Worklist.mark w) := by
  obtain ⟨hok, hmem⟩ := h.toOk.foldl_mark (next x)
  have hxmem : x ∈ w.items := mem_of_getElem? hx
  refine { hok with start_mem := ?_, reached := ?_, expanded := ?_, inside := ?_ }
  · exact fun y hy => (hmem y).mpr (Or.inl (h.start_mem y hy))
  · intro y hy
    rcases (hmem y).mp hy with hy | hy
    · exact h.reached y hy
    · obtain ⟨x₀, hx₀, hpath⟩ := h.reached x hxmem
      exact ⟨x₀, hx₀, hpath.tail hy⟩
  · intro k z hk hz y hy
    -- the entries before the end are those of the list before
    have hold : w.items[k]? = some z := by
      have hlt : k < w.items.length := hk.trans_le (List.getElem?_eq_some_iff.mp hx).1
      obtain ⟨later, hlater⟩ := items_prefix_foldl w (next x)
      rwa [← hlater, List.getElem?_append_left hlt] at hz
    rcases Nat.lt_succ_iff_lt_or_eq.mp hk with hk | rfl
    · exact (hmem y).mpr (Or.inl (h.expanded k z hk hold y hy))
    · obtain rfl := Option.some.inj (hold.symm.trans hx)
      exact (hmem y).mpr (Or.inr hy)
  · intro y hy
    exact ((hmem y).mp hy).elim (h.inside y) (hU y)

omit [DecidableEq ι] in
/-- When every node of the list was taken, what the first ones reach is on it. -/
theorem Inv.closed (h : Inv next start U processed w) (hend : w.items[processed]? = none) (y : ι)
    (hy : ∃ x ∈ start, Relation.ReflTransGen (fun x y => y ∈ next x) x y) : y ∈ w.items := by
  obtain ⟨x, hx, hpath⟩ := hy
  induction hpath with
  | refl => exact h.start_mem x hx
  | tail _ hedge ih =>
    obtain ⟨k, hk⟩ := mem_iff_getElem?.mp ih
    have hlt : k < w.items.length := (List.getElem?_eq_some_iff.mp hk).1
    exact h.expanded k _ (hlt.trans_le (List.getElem?_eq_none_iff.mp hend)) hk _ hedge

/-- The run ends, and the nodes on the list are those that the first ones reach. -/
theorem run_spec (hU : ∀ x ∈ U, ∀ y ∈ next x, y ∈ U) (h : Inv next start U processed w)
    (hfuel : U.card ≤ processed + fuel) :
    ∃ w', run next fuel processed w = some w' ∧ w'.Ok ∧ w'.items.length ≤ U.card ∧
      ∀ y, y ∈ w'.items ↔ ∃ x ∈ start, Relation.ReflTransGen (fun x y => y ∈ next x) x y := by
  induction fuel generalizing processed w with
  | zero =>
    have hend : w.items[processed]? = none :=
      List.getElem?_eq_none ((h.toOk.length_le h.inside).trans hfuel)
    refine ⟨w, by rw [run, hend], h.toOk, h.toOk.length_le h.inside, fun y => ⟨h.reached y, ?_⟩⟩
    exact h.closed hend y
  | succ fuel ih =>
    cases hx : w.items[processed]? with
    | none =>
      refine ⟨w, by rw [run, hx], h.toOk, h.toOk.length_le h.inside, fun y => ⟨h.reached y, ?_⟩⟩
      exact h.closed hx y
    | some x =>
      have hstep := h.step hx (hU x (h.inside x (mem_of_getElem? hx)))
      obtain ⟨w', hrun, hrest⟩ := ih hstep (by omega)
      exact ⟨w', by rw [run, hx]; exact hrun, hrest⟩

end Worklist

end Mettle.Lib

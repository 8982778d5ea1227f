import Mathlib

/-!
# Loops with a bound on their iterations

A `while` loop whose body may itself run out. A measure that every iteration lowers gives the result
of the loop from any bound above it.
-/

open List
open Option hiding or_assoc

namespace Mettle.Lib

section

variable {σ : Type*}

/-- `while (cond) body`; `none` when the bound is used up, or by a body without a result. -/
def loop (cond : σ → Bool) (body : σ → Option σ) : ℕ → σ → Option σ
  | 0, _ => none
  | fuel + 1, s => if cond s then (body s).bind (loop cond body fuel) else some s

/-- The invariant holds where the loop stops, and it stops. -/
theorem loop_total {cond : σ → Bool} {body : σ → Option σ} {Inv : σ → Prop} {measure : σ → ℕ}
    (hbody : ∀ s, Inv s → cond s = true → ∃ s', body s = some s' ∧ Inv s' ∧ measure s' < measure s)
    {fuel : ℕ} {s : σ} (hs : Inv s) (hfuel : measure s < fuel) :
    ∃ t, loop cond body fuel s = some t ∧ Inv t ∧ cond t = false := by
  induction fuel generalizing s with
  | zero => omega
  | succ fuel ih =>
    rw [loop]
    by_cases hcond : cond s = true
    · obtain ⟨s', hs', hinv, hlt⟩ := hbody s hs hcond
      rw [if_pos hcond, hs', bind_some]
      exact ih hinv (by omega)
    · rw [if_neg hcond]
      exact ⟨s, rfl, hs, by simpa using hcond⟩

/-- An invariant of a counted loop, indexed by the iterations done. -/
theorem foldl_range_inv {body : σ → ℕ → σ} {Inv : ℕ → σ → Prop} {s : σ} (h : Inv 0 s)
    (hbody : ∀ k s, Inv k s → Inv (k + 1) (body s k)) (n : ℕ) : Inv n ((range n).foldl body s) := by
  induction n with
  | zero => exact h
  | succ n ih =>
    rw [range_succ, foldl_append, foldl_cons, foldl_nil]
    exact hbody n _ ih

end

/-!
## Folds and traversals of a list

A pass rewrites its subject once for each element of a list: a condition on the subject before each
rewrite is a condition along the fold. A traversal with failures gives a list of results when each
element has one.
-/

variable {α β : Type*} {f : β → α → β} {P : β → α → Prop}

/-- The condition holds before each step of the fold. -/
def Along (f : β → α → β) (P : β → α → Prop) : β → List α → Prop
  | _, [] => True
  | b, a :: rest => P b a ∧ Along f P (f b a) rest

/-- What a step under the condition keeps, the fold keeps. -/
theorem Along.foldl {Inv : β → Prop} {l : List α} {b : β} (h : Along f P b l) (hb : Inv b)
    (hstep : ∀ b, ∀ a ∈ l, Inv b → P b a → Inv (f b a)) : Inv (l.foldl f b) := by
  induction l generalizing b with
  | nil => exact hb
  | cons a rest ih =>
    obtain ⟨ha, hrest⟩ := h
    exact ih hrest (hstep b a (.head _) hb ha) fun b c hc =>
      hstep b c (.tail _ hc)

theorem mem_foldl_union {V : Type*} [DecidableEq V] {g : α → Finset V} {l : List α} {s : Finset V} {v : V} :
    v ∈ l.foldl (fun s a => s ∪ g a) s ↔ v ∈ s ∨ ∃ a ∈ l, v ∈ g a := by
  induction l generalizing s with
  | nil => simp
  | cons a rest ih =>
    rw [foldl_cons, ih, Finset.mem_union, or_assoc]
    simp

theorem mapM_congr_option {γ : Type*} {f g : α → Option γ} {l : List α} (h : ∀ a ∈ l, f a = g a) :
    l.mapM f = l.mapM g := by
  induction l with
  | nil => rfl
  | cons a l ih =>
    rw [mapM_cons, mapM_cons, h a mem_cons_self,
      ih fun b hb => h b (.tail _ hb)]

theorem map_of_mapM {γ : Type*} {f : α → Option γ} {l : List α} {r : List γ}
    (h : l.mapM f = some r) : l.map f = r.map some := by
  induction l generalizing r with
  | nil =>
    obtain rfl : [] = r := by simpa using h
    rfl
  | cons a rest ih =>
    rw [mapM_cons] at h
    simp only [bind_eq_bind, bind_eq_some_iff, Option.pure_def, some.injEq] at h
    obtain ⟨b, hb, r', hr', rfl⟩ := h
    rw [map_cons, map_cons, hb, ih hr']

end Mettle.Lib

import Mathlib

/-!
# Tables with keys

A list in which the first entry of a key is found, grown at its end, and replaced in place. Entries come one after the
other, and of those with one key an ordinary one takes precedence over a default.
-/

open List

namespace Mettle.Lib

variable {δ κ : Type*} [DecidableEq κ] {key : δ → κ} {table : List δ} {d held : δ} {k : κ}

/-- The first entry of a key. -/
def lookup (key : δ → κ) (table : List δ) (k : κ) : Option δ := table.find? fun d => key d = k

/-- The entries of the key of `d` become `d`. -/
def replace (key : δ → κ) (table : List δ) (d : δ) : List δ :=
  table.map fun held => if key held = key d then d else held

/-- The first entry of a key is found. -/
theorem lookup_cons : lookup key (d :: table) k = if key d = k then some d else lookup key table k := by
  unfold lookup
  rw [find?_cons]
  split
  · rename_i h
    rw [if_pos (of_decide_eq_true h)]
  · rename_i h
    rw [if_neg (of_decide_eq_false h)]

/-- An entry at the end is found when there was none. -/
theorem lookup_append (key : δ → κ) : lookup key (table ++ [d]) k = (lookup key table k).or (if key d = k then some d else none) := by
  induction table with
  | nil => exact lookup_cons
  | cons held table ih =>
    rw [cons_append, lookup_cons, lookup_cons, ih]
    split <;> rfl

theorem lookup_key (h : lookup key table k = some d) : key d = k :=
  of_decide_eq_true (find?_eq_some_iff_append.mp h).1

/-- Replacing keeps the other keys. -/
theorem lookup_replace_ne (h : k ≠ key d) : lookup key (replace key table d) k = lookup key table k := by
  induction table with
  | nil => rfl
  | cons held table ih =>
    unfold replace at *
    rw [map_cons, lookup_cons, lookup_cons, ih]
    by_cases hheld : key held = key d
    · rw [if_pos hheld, if_neg h.symm, if_neg (hheld ▸ h.symm)]
    · rw [if_neg hheld]

/-- The replaced entry is found. -/
theorem lookup_replace_self (h : lookup key table (key d) = some held) :
    lookup key (replace key table d) (key d) = some d := by
  induction table with
  | nil => cases h
  | cons held' table ih =>
    unfold replace at *
    rw [map_cons, lookup_cons]
    by_cases hheld : key held' = key d
    · rw [if_pos hheld, if_pos rfl]
    · rw [if_neg hheld, if_neg hheld]
      rw [lookup_cons, if_neg hheld] at h
      exact ih h

/-! ## Precedence -/

/-- Of the entries that came, `found` is the one for the key `k`: the only ordinary one or, when there is none, the
only one. -/
structure Holds (key : δ → κ) (isDefault : δ → Bool) (came : List δ) (k : κ) (found : Option δ) : Prop where
  absent : found = none → ∀ d ∈ came, key d ≠ k
  mem : ∀ held, found = some held → held ∈ came ∧ key held = k
  ordinary : ∀ held, found = some held → ∀ d ∈ came, key d = k → isDefault d = false → d = held
  default : ∀ held, found = some held → isDefault held = true → ∀ d ∈ came, key d = k → d = held

namespace Holds

variable {isDefault : δ → Bool} {came : List δ} {found : Option δ}

omit [DecidableEq κ] in
theorem nil : Holds key isDefault [] k none where
  absent _ _ h := absurd h List.not_mem_nil
  mem _ h := (nomatch h)
  ordinary _ h := (nomatch h)
  default _ h := (nomatch h)

omit [DecidableEq κ] in
/-- An entry of another key. -/
theorem other (h : Holds key isDefault came k found) (hd : key d ≠ k) :
    Holds key isDefault (came ++ [d]) k found where
  absent hnone x hx := by
    rcases mem_append.mp hx with hx | hx
    · exact h.absent hnone x hx
    · rw [mem_singleton.mp hx]
      exact hd
  mem held hheld := ⟨mem_append_left _ (h.mem held hheld).1, (h.mem held hheld).2⟩
  ordinary held hheld x hx hkey hordinary := by
    rcases mem_append.mp hx with hx | hx
    · exact h.ordinary held hheld x hx hkey hordinary
    · exact absurd (mem_singleton.mp hx ▸ hkey) hd
  default held hheld hdefault x hx hkey := by
    rcases mem_append.mp hx with hx | hx
    · exact h.default held hheld hdefault x hx hkey
    · exact absurd (mem_singleton.mp hx ▸ hkey) hd

omit [DecidableEq κ] in
/-- The first entry of its key. -/
theorem first (h : Holds key isDefault came (key d) none) : Holds key isDefault (came ++ [d]) (key d) (some d) where
  absent hnone := (nomatch hnone)
  mem held hheld := by
    cases hheld
    exact ⟨mem_append_right _ (mem_singleton_self d), rfl⟩
  ordinary held hheld x hx hkey _ := by
    cases hheld
    rcases mem_append.mp hx with hx | hx
    · exact absurd hkey (h.absent rfl x hx)
    · exact mem_singleton.mp hx
  default held hheld _ x hx hkey := by
    cases hheld
    rcases mem_append.mp hx with hx | hx
    · exact absurd hkey (h.absent rfl x hx)
    · exact mem_singleton.mp hx

omit [DecidableEq κ] in
/-- An ordinary entry takes the place of a default. -/
theorem override (h : Holds key isDefault came (key d) (some held)) (hheld : isDefault held = true)
    (hd : isDefault d = false) : Holds key isDefault (came ++ [d]) (key d) (some d) where
  absent hnone := (nomatch hnone)
  mem x hx := by
    cases hx
    exact ⟨mem_append_right _ (mem_singleton_self d), rfl⟩
  ordinary x hx y hy hkey hordinary := by
    cases hx
    rcases mem_append.mp hy with hy | hy
    · rw [h.default held rfl hheld y hy hkey, hheld] at hordinary
      cases hordinary
    · exact mem_singleton.mp hy
  default x hx hdefault := by
    cases hx
    rw [hd] at hdefault
    cases hdefault

omit [DecidableEq κ] in
/-- A default does not take the place of an ordinary entry. -/
theorem keep (h : Holds key isDefault came (key d) (some held)) (hheld : isDefault held = false)
    (hd : isDefault d = true) : Holds key isDefault (came ++ [d]) (key d) (some held) where
  absent hnone := (nomatch hnone)
  mem x hx := ⟨mem_append_left _ (h.mem x hx).1, (h.mem x hx).2⟩
  ordinary x hx y hy hkey hordinary := by
    rcases mem_append.mp hy with hy | hy
    · exact h.ordinary x hx y hy hkey hordinary
    · rw [mem_singleton.mp hy, hd] at hordinary
      cases hordinary
  default x hx hdefault := by
    cases hx
    rw [hheld] at hdefault
    cases hdefault

end Holds

end Mettle.Lib

import Mathlib

/-!
# Lock-step simulation

Two machines with partial step functions. A relation that every step keeps relates their runs, up to
configurations of the first machine from which it is bound to stop; machines in lock step also stop
together.
-/

open Option

namespace Mettle.Lib

section

variable {C C' : Type*}

/-- `n` steps of a machine, `none` when it stops. -/
def runN (step : C → Option C) : ℕ → C → Option C
  | 0, c => some c
  | n + 1, c => (step c).bind (runN step n)

/-- One step more, at the end. -/
theorem runN_succ (step : C → Option C) (n : ℕ) (c : C) :
    runN step (n + 1) c = (runN step n c).bind step := by
  induction n generalizing c with
  | zero => simp [runN]
  | succ n ih =>
    rw [runN, runN, bind_assoc]
    congr 1
    funext d
    exact ih d

/-- The steps of the second machine follow those of the first while it is not doomed. -/
structure Simulation (step : C → Option C) (step' : C' → Option C') (R : C → C' → Prop)
    (Doomed : C → Prop) : Prop where
  follows : ∀ {c c' d}, R c c' → step c = some d → (∃ d', step' c' = some d' ∧ R d d') ∨ Doomed d
  doomed : ∀ {c d}, Doomed c → step c = some d → Doomed d

/-- Along a run the simulation goes on, or the run is doomed. -/
theorem Simulation.run {step : C → Option C} {step' : C' → Option C'} {R : C → C' → Prop}
    {Doomed : C → Prop} (h : Simulation step step' R Doomed) {c : C} {c' : C'} (hstart : R c c') :
    ∀ n d, runN step n c = some d → (∃ d', runN step' n c' = some d' ∧ R d d') ∨ Doomed d := by
  intro n
  induction n with
  | zero =>
    intro d hd
    cases hd
    exact Or.inl ⟨c', rfl, hstart⟩
  | succ n ih =>
    intro d hd
    rw [runN_succ, bind_eq_some_iff] at hd
    obtain ⟨e, he, hstep⟩ := hd
    rcases ih e he with ⟨e', he', hrel⟩ | hdoomed
    · rcases h.follows hrel hstep with ⟨d', hd', hrel'⟩ | hdoomed
      · exact Or.inl ⟨d', by rw [runN_succ, he', bind_some, hd'], hrel'⟩
      · exact Or.inr hdoomed
    · exact Or.inr (h.doomed hdoomed hstep)

/-- Two results that are there together and related. -/
theorem rel_of_imp {α β : Type*} {r : α → β → Prop} {a : Option α} {b : Option β}
    (h : ∀ x, a = some x → ∃ y, b = some y ∧ r x y) (h' : ∀ y, b = some y → ∃ x, a = some x) :
    Option.Rel r a b := by
  cases a with
  | none =>
    cases b with
    | none => exact .none
    | some y =>
      obtain ⟨x, hx⟩ := h' y rfl
      cases hx
  | some x =>
    obtain ⟨y, rfl, hr⟩ := h x rfl
    exact .some hr

/-- Machines that go on alike or stop together, as long as an invariant of the first one holds. -/
structure Lockstep (step : C → Option C) (step' : C' → Option C') (Inv : C → Prop) (R : C → C' → Prop) :
    Prop where
  follows : ∀ {c c'}, Inv c → R c c' → Option.Rel R (step c) (step' c')
  inv : ∀ {c d}, Inv c → step c = some d → Inv d

/-- In lockstep the runs get stuck together and stay related. -/
theorem Lockstep.run {step : C → Option C} {step' : C' → Option C'} {Inv : C → Prop} {R : C → C' → Prop}
    (h : Lockstep step step' Inv R) {c : C} {c' : C'} (hinv : Inv c) (hstart : R c c') (n : ℕ) :
    Option.Rel R (runN step n c) (runN step' n c') := by
  induction n generalizing c c' with
  | zero => exact .some hstart
  | succ n ih =>
    rw [runN, runN]
    have hstep := h.follows hinv hstart
    cases hc : step c with
    | none =>
      rw [hc] at hstep
      cases hc' : step' c' with
      | none => exact .none
      | some d' =>
        rw [hc'] at hstep
        cases hstep
    | some d =>
      rw [hc] at hstep
      cases hc' : step' c' with
      | none =>
        rw [hc'] at hstep
        cases hstep
      | some d' =>
        rw [hc'] at hstep
        cases hstep with
        | some hrel => exact ih (h.inv hinv hc) hrel

end

/-!
## Segment simulation

Two machines whose steps do not correspond one to one. Related configurations lead, each by at least one
step, to related configurations again, or both to the same end: then they have the same ends, and one
goes on forever exactly when the other does. What the first machine must keep doing for this may be a
condition on its run, up to a first step that releases it.
-/

open Relation

variable {C C' O : Type*}

/-- The machine leads from one configuration to another through configurations that satisfy `P`, the
last one excepted. -/
abbrev Path (step : C → Option C) (P : C → Prop) : C → C → Prop :=
  ReflTransGen fun c d => P c ∧ step c = some d

/-- A path of at least one step. -/
abbrev PathOn (step : C → Option C) (P : C → Prop) : C → C → Prop :=
  TransGen fun c d => P c ∧ step c = some d

/-- A path on which nothing is asked. -/
abbrev Leads (step : C → Option C) : C → C → Prop := Path step fun _ => True

/-- A path of at least one step on which nothing is asked. -/
abbrev LeadsOn (step : C → Option C) : C → C → Prop := PathOn step fun _ => True

section

variable {step : C → Option C} {P Q : C → Prop} {c d e : C}

theorem Path.one (hc : P c) (h : step c = some d) : Path step P c d := ReflTransGen.single ⟨hc, h⟩

theorem PathOn.one (hc : P c) (h : step c = some d) : PathOn step P c d := TransGen.single ⟨hc, h⟩

theorem Path.mono (h : Path step P c d) (hle : ∀ x, P x → Q x) : Path step Q c d :=
  ReflTransGen.mono (fun _ _ hxy => ⟨hle _ hxy.1, hxy.2⟩) _ _ h

theorem PathOn.mono (h : PathOn step P c d) (hle : ∀ x, P x → Q x) : PathOn step Q c d :=
  TransGen.mono (fun _ _ hxy => ⟨hle _ hxy.1, hxy.2⟩) _ _ h

theorem Path.leads (h : Path step P c d) : Leads step c d := h.mono fun _ _ => trivial

theorem PathOn.leads (h : PathOn step P c d) : LeadsOn step c d := h.mono fun _ _ => trivial

theorem leads_step (h : step c = some d) : LeadsOn step c d := PathOn.one trivial h

end

/-- The machine runs from a configuration until it stops, and shows `o` there. -/
def Ends (step : C → Option C) (obs : C → O) (c : C) (o : O) : Prop :=
  ∃ n d, runN step n c = some d ∧ step d = none ∧ obs d = o

section

variable {step : C → Option C} {obs : C → O} {P : C → Prop} {c d : C} {o : O}

theorem Ends.stop (h : step c = none) : Ends step obs c (obs c) :=
  ⟨0, c, rfl, h, rfl⟩

/-- A run to its end, by evaluation. -/
theorem ends_of_runN {n : ℕ} (hobs : (runN step n c).map obs = some o) (hstop : runN step (n + 1) c = none) :
    Ends step obs c o := by
  obtain ⟨d, hd, ho⟩ := map_eq_some_iff.mp hobs
  rw [runN_succ, hd, bind_some] at hstop
  exact ⟨n, d, hd, hstop, ho⟩

theorem ends_step (h : step c = some d) : Ends step obs c o ↔ Ends step obs d o := by
  constructor
  · rintro ⟨n, e, hrun, hstop, hobs⟩
    cases n with
    | zero =>
      -- The machine does not stop where it steps.
      cases hrun
      rw [h] at hstop
      cases hstop
    | succ n =>
      rw [runN, h, bind_some] at hrun
      exact ⟨n, e, hrun, hstop, hobs⟩
  · rintro ⟨n, e, hrun, hstop, hobs⟩
    refine ⟨n + 1, e, ?_, hstop, hobs⟩
    rw [runN, h, bind_some]
    exact hrun

theorem ends_path (h : Path step P c d) : Ends step obs c o ↔ Ends step obs d o := by
  induction h with
  | refl => rfl
  | tail _ hstep ih => exact ih.trans (ends_step hstep.2)

theorem ends_runN {n : ℕ} (h : runN step n c = some d) : Ends step obs c o ↔ Ends step obs d o := by
  induction n generalizing c with
  | zero =>
    cases h
    rfl
  | succ n ih =>
    rw [runN, bind_eq_some_iff] at h
    obtain ⟨e, he, hrun⟩ := h
    exact (ends_step he).trans (ih hrun)

theorem Ends.unique {o' : O} (h : Ends step obs c o) (h' : Ends step obs c o') : o = o' := by
  obtain ⟨n, d, hrun, hstop, rfl⟩ := h
  obtain ⟨m, e, hrun', hstop', rfl⟩ := (ends_runN hrun).mp h'
  cases m with
  | zero =>
    cases hrun'
    rfl
  | succ m =>
    rw [runN, hstop] at hrun'
    cases hrun'

/-- What is left of a run to its end after a path of at least one step is shorter. -/
theorem runN_after {n : ℕ} {e : C} (hrun : runN step n c = some e) (hstop : step e = none)
    (h : PathOn step P c d) : ∃ m < n, runN step m d = some e := by
  have hone : ∀ {a b n}, runN step n a = some e → step a = some b → ∃ m < n, runN step m b = some e := by
    intro a b n hrun hab
    cases n with
    | zero =>
      cases hrun
      rw [hab] at hstop
      cases hstop
    | succ n =>
      rw [runN, hab, bind_some] at hrun
      exact ⟨n, Nat.lt_succ_self n, hrun⟩
  induction h with
  | single hstep => exact hone hrun hstep.2
  | tail _ hstep ih =>
    obtain ⟨m, hm, hrun'⟩ := ih
    obtain ⟨k, hk, hrun''⟩ := hone hrun' hstep.2
    exact ⟨k, by omega, hrun''⟩

end

/-- Both machines come to the same end, or go on, each by a step or more, to related configurations. -/
def Joins (step : C → Option C) (step' : C' → Option C') (obs : C → O) (obs' : C' → O) (R : C → C' → Prop)
    (c : C) (c' : C') : Prop :=
  (∃ o, Ends step obs c o ∧ Ends step' obs' c' o) ∨
    ∃ d d', LeadsOn step c d ∧ LeadsOn step' c' d' ∧ R d d'

section

variable {step : C → Option C} {step' : C' → Option C'} {obs : C → O} {obs' : C' → O} {R : C → C' → Prop}
  {c d : C} {c' d' : C'}

/-- Two runs that have the same end join. -/
theorem Joins.ends {o : O} (h : Ends step obs c o) (h' : Ends step' obs' c' o) :
    Joins step step' obs obs' R c c' :=
  Or.inl ⟨o, h, h'⟩

/-- So do two that lead on to related states. -/
theorem Joins.on (h : LeadsOn step c d) (h' : LeadsOn step' c' d') (hrel : R d d') :
    Joins step step' obs obs' R c c' :=
  Or.inr ⟨d, d', h, h', hrel⟩

/-- Joining is symmetric. -/
theorem Joins.symm (h : Joins step step' obs obs' R c c') :
    Joins step' step obs' obs (fun x y => R y x) c' c := by
  rcases h with ⟨o, h, h'⟩ | ⟨d, d', h, h', hrel⟩
  · exact Or.inl ⟨o, h', h⟩
  · exact Or.inr ⟨d', d, h', h, hrel⟩

/-- An end of the first machine is one of the second: by induction on the steps to it, of which each
segment takes at least one. -/
theorem ends_of_joins (h : ∀ c c', R c c' → Joins step step' obs obs' R c c') {o : O} (hrel : R c c')
    (hend : Ends step obs c o) : Ends step' obs' c' o := by
  obtain ⟨n, e, hrun, hstop, hobs⟩ := hend
  induction n using Nat.strong_induction_on generalizing c c' with
  | _ n ih =>
    rcases h c c' hrel with ⟨o', hends, hends'⟩ | ⟨d, d', hon, hon', hrel'⟩
    · have heq : o = o' := Ends.unique ⟨n, e, hrun, hstop, hobs⟩ hends
      rwa [heq]
    · obtain ⟨m, hm, hrest⟩ := runN_after hrun hstop hon
      exact (ends_path hon'.to_reflTransGen).mpr (ih m hm hrel' hrest)

/-- Machines that always join have the same ends. -/
theorem ends_iff_of_joins (h : ∀ c c', R c c' → Joins step step' obs obs' R c c') (hrel : R c c') (o : O) :
    Ends step obs c o ↔ Ends step' obs' c' o :=
  ⟨ends_of_joins h hrel, ends_of_joins (fun x y hxy => (h y x hxy).symm) hrel⟩

end

/-- Every configuration of the run up to the first one that is released is good. -/
def Until (step : C → Option C) (Released Good : C → Prop) (c : C) : Prop :=
  ∀ d, Path step (fun x => ¬ Released x) c d → Good d

section

variable {step : C → Option C} {Released Good : C → Prop} {c d : C}

theorem Until.now (h : Until step Released Good c) : Good c :=
  h c ReflTransGen.refl

/-- A path on which nothing is released carries the condition on. -/
theorem Until.path (h : Until step Released Good c) (hpath : Path step (fun x => ¬ Released x) c d) :
    Until step Released Good d :=
  fun a ha => h a (hpath.trans ha)

/-- A run that stops is good throughout when each of its configurations is. -/
theorem until_of_runN {n : ℕ} (hstop : runN step (n + 1) c = none)
    (hgood : ∀ k ≤ n, ∀ d, runN step k c = some d → Good d) : Until step Released Good c := by
  intro d hpath
  obtain ⟨k, hk⟩ : ∃ k, runN step k c = some d := by
    induction hpath with
    | refl => exact ⟨0, rfl⟩
    | tail _ hstep ih =>
      obtain ⟨k, hk⟩ := ih
      refine ⟨k + 1, ?_⟩
      rw [runN_succ, hk, bind_some]
      exact hstep.2
  refine hgood k ?_ d hk
  by_contra hlt
  have hnone : ∀ m, runN step (n + 1 + m) c = none := by
    intro m
    induction m with
    | zero => exact hstop
    | succ m ih =>
      rw [← Nat.add_assoc, runN_succ, ih]
      rfl
  have := hnone (k - (n + 1))
  rw [show n + 1 + (k - (n + 1)) = k by omega, hk] at this
  cases this

end

end Mettle.Lib

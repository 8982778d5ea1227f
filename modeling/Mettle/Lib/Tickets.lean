import Mathlib

/-!
# A dispenser of tickets

Jobs are published one after another, each with a number of pieces. Threads draw tickets: below the
count of the job a ticket is a piece to work on, beyond it a miss. A job may be published once every
piece of the last one is finished. Then every piece is drawn once, by one thread, whatever the order of
the steps, and a job whose finished pieces are as many as its count is complete.
-/

open List Function

namespace Mettle.Lib

variable {T : Type*}

/-- The dispenser. Jobs are numbered from `1`; a piece is a job and an index. -/
structure Tickets (T : Type*) where
  jobs : ℕ
  count : ℕ → ℕ
  next : ℕ
  held : T → Option (ℕ × ℕ)
  finished : List (ℕ × ℕ)

namespace Tickets

/-- Every piece of the last job has been drawn and none is being worked on. -/
def Idle (s : Tickets T) : Prop := s.count s.jobs ≤ s.next ∧ ∀ t, s.held t = none

/-- The steps of the dispenser. -/
inductive Step [DecidableEq T] : Tickets T → Tickets T → Prop
  | publish {s : Tickets T} (n : ℕ) (h : s.Idle) :
    Step s { s with jobs := s.jobs + 1, count := Function.update s.count (s.jobs + 1) n, next := 0 }
  | draw {s : Tickets T} (t : T) (h : s.held t = none) (hlt : s.next < s.count s.jobs) :
    Step s { s with next := s.next + 1, held := Function.update s.held t (some (s.jobs, s.next)) }
  | miss {s : Tickets T} (h : s.count s.jobs ≤ s.next) : Step s { s with next := s.next + 1 }
  | finish {s : Tickets T} (t : T) {k : ℕ × ℕ} (h : s.held t = some k) :
    Step s { s with held := Function.update s.held t none, finished := k :: s.finished }

/-- What holds of the dispenser throughout. -/
structure Inv (s : Tickets T) : Prop where
  nodup : s.finished.Nodup
  apart : ∀ {t t' k}, s.held t = some k → s.held t' = some k → t = t'
  fresh : ∀ {t k}, s.held t = some k → k ∉ s.finished
  current : ∀ {t k}, s.held t = some k →
    1 ≤ s.jobs ∧ k.1 = s.jobs ∧ k.2 < s.next ∧ k.2 < s.count s.jobs
  valid : ∀ {k}, k ∈ s.finished →
    1 ≤ k.1 ∧ k.1 ≤ s.jobs ∧ k.2 < s.count k.1 ∧ (k.1 = s.jobs → k.2 < s.next)
  drawn : ∀ {i}, i < s.next → i < s.count s.jobs →
    (s.jobs, i) ∈ s.finished ∨ ∃ t, s.held t = some (s.jobs, i)
  past : ∀ {j i}, 1 ≤ j → j < s.jobs → i < s.count j → (j, i) ∈ s.finished
  start : s.count 0 = 0

variable {s s' : Tickets T}

/-- In an idle dispenser every piece of every job is finished. -/
theorem Inv.complete (h : s.Inv) (hidle : s.Idle) {j i : ℕ} (hj : 1 ≤ j) (hjobs : j ≤ s.jobs)
    (hi : i < s.count j) : (j, i) ∈ s.finished := by
  rcases Nat.lt_or_eq_of_le hjobs with hlt | rfl
  · exact h.past hj hlt hi
  · have hnext := hidle.1
    refine (h.drawn (by omega) hi).resolve_right ?_
    rintro ⟨t, ht⟩
    rw [hidle.2 t] at ht
    cases ht

theorem Inv.step [DecidableEq T] (h : s.Inv) (hstep : Step s s') : s'.Inv := by
  cases hstep with
  | publish n hidle =>
    refine ⟨h.nodup, h.apart, h.fresh, ?_, ?_, ?_, ?_, ?_⟩
    · intro t k hk
      rw [show s.held t = none from hidle.2 t] at hk
      cases hk
    · intro k hk
      obtain ⟨hpos, hle, hcount, -⟩ := h.valid hk
      simp only [update_of_ne (show k.1 ≠ s.jobs + 1 by omega)]
      exact ⟨hpos, by omega, hcount, by omega⟩
    · intro i hi
      cases hi
    · intro j i hj hlt hi
      simp only at hlt
      simp only [update_of_ne (show j ≠ s.jobs + 1 by omega)] at hi
      exact h.complete hidle hj (by omega) hi
    · simp only [update_of_ne (show 0 ≠ s.jobs + 1 by omega)]
      exact h.start
  | draw t hnone hlt =>
    have hjobs : 1 ≤ s.jobs := by
      rcases Nat.eq_zero_or_pos s.jobs with hzero | hpos
      · rw [hzero, h.start] at hlt
        cases hlt
      · exact hpos
    -- the ticket drawn is larger than those drawn before
    have hnew : ∀ {t' : T}, s.held t' ≠ some (s.jobs, s.next) := by
      intro t' ht'
      exact absurd (h.current ht').2.2.1 (lt_irrefl _)
    refine ⟨h.nodup, ?_, ?_, ?_, ?_, ?_, h.past, h.start⟩
    · intro t₁ t₂ k h₁ h₂
      simp only [update_apply] at h₁ h₂
      split at h₁ <;> split at h₂
      · simp_all
      · cases h₁
        exact absurd h₂ hnew
      · cases h₂
        exact absurd h₁ hnew
      · exact h.apart h₁ h₂
    · intro t' k hk hmem
      simp only [update_apply] at hk
      split at hk
      · cases hk
        exact absurd ((h.valid hmem).2.2.2 rfl) (lt_irrefl _)
      · exact h.fresh hk hmem
    · intro t' k hk
      simp only [update_apply] at hk
      split at hk
      · cases hk
        exact ⟨hjobs, rfl, Nat.lt_succ_self _, hlt⟩
      · obtain ⟨h₁, h₂, h₃, h₄⟩ := h.current hk
        exact ⟨h₁, h₂, Nat.lt_succ_of_lt h₃, h₄⟩
    · intro k hk
      obtain ⟨h₁, h₂, h₃, h₄⟩ := h.valid hk
      exact ⟨h₁, h₂, h₃, fun hj => Nat.lt_succ_of_lt (h₄ hj)⟩
    · intro i hi hcount
      rcases Nat.lt_succ_iff_lt_or_eq.mp hi with hold | rfl
      · rcases h.drawn hold hcount with hfin | ⟨t', ht'⟩
        · exact Or.inl hfin
        · refine Or.inr ⟨t', ?_⟩
          have hne : t' ≠ t := by
            rintro rfl
            rw [hnone] at ht'
            cases ht'
          simp only [update_of_ne hne, ht']
      · exact Or.inr ⟨t, by simp only [update_self]⟩
  | miss hle =>
    refine ⟨h.nodup, h.apart, h.fresh, ?_, ?_, ?_, h.past, h.start⟩
    · intro t k hk
      obtain ⟨h₁, h₂, h₃, h₄⟩ := h.current hk
      exact ⟨h₁, h₂, Nat.lt_succ_of_lt h₃, h₄⟩
    · intro k hk
      obtain ⟨h₁, h₂, h₃, h₄⟩ := h.valid hk
      exact ⟨h₁, h₂, h₃, fun hj => Nat.lt_succ_of_lt (h₄ hj)⟩
    · intro i hi hcount
      simp only at hi hcount
      exact h.drawn (by omega) hcount
  | finish t hk =>
    rename_i k
    refine ⟨nodup_cons.mpr ⟨h.fresh hk, h.nodup⟩, ?_, ?_, ?_, ?_, ?_, ?_, h.start⟩
    · intro t₁ t₂ k' h₁ h₂
      simp only [update_apply] at h₁ h₂
      split at h₁
      · cases h₁
      · split at h₂
        · cases h₂
        · exact h.apart h₁ h₂
    · intro t' k' hk' hmem
      simp only [update_apply] at hk'
      split at hk'
      · cases hk'
      · rename_i hne
        rcases mem_cons.mp hmem with rfl | hmem
        · exact hne (h.apart hk' hk)
        · exact h.fresh hk' hmem
    · intro t' k' hk'
      simp only [update_apply] at hk'
      split at hk'
      · cases hk'
      · exact h.current hk'
    · intro k' hmem
      rcases mem_cons.mp hmem with rfl | hmem
      · obtain ⟨h₁, h₂, h₃, h₄⟩ := h.current hk
        exact ⟨by omega, h₂.le, by rw [h₂]; exact h₄, fun _ => h₃⟩
      · exact h.valid hmem
    · intro i hi hcount
      rcases h.drawn hi hcount with hfin | ⟨t', ht'⟩
      · exact Or.inl (.tail _ hfin)
      · by_cases ht : t' = t
        · subst ht
          rw [hk] at ht'
          cases ht'
          exact Or.inl mem_cons_self
        · exact Or.inr ⟨t', by simp only [update_of_ne ht, ht']⟩
    · intro j i hj hlt hi
      exact .tail _ (h.past hj hlt hi)

/-! ## Counting the finished pieces -/

/-- The finished pieces of a job. -/
def finishedOf (s : Tickets T) (j : ℕ) : ℕ := s.finished.countP fun k => k.1 = j

/-- The finished pieces of a job are pieces of it, each once. -/
theorem Inv.pieces (h : s.Inv) (j : ℕ) :
    ((s.finished.filter fun k => k.1 = j).map Prod.snd).Nodup ∧
      ((s.finished.filter fun k => k.1 = j).map Prod.snd) ⊆ range (s.count j) := by
  constructor
  · refine (nodup_map_iff_inj_on (h.nodup.filter _)).mpr ?_
    intro a ha b hb hab
    rw [mem_filter, decide_eq_true_eq] at ha hb
    exact Prod.ext (ha.2.trans hb.2.symm) hab
  · intro i hi
    rw [mem_map] at hi
    obtain ⟨k, hk, rfl⟩ := hi
    rw [mem_filter, decide_eq_true_eq] at hk
    rw [mem_range, ← hk.2]
    exact (h.valid hk.1).2.2.1

/-- How many pieces of a job are finished. -/
theorem finishedOf_eq_length (s : Tickets T) (j : ℕ) :
    s.finishedOf j = ((s.finished.filter fun k => k.1 = j).map Prod.snd).length := by
  rw [length_map, finishedOf, countP_eq_length_filter]

/-- No job has more finished pieces than pieces. -/
theorem Inv.finishedOf_le (h : s.Inv) (j : ℕ) : s.finishedOf j ≤ s.count j := by
  obtain ⟨hnodup, hsub⟩ := h.pieces j
  rw [finishedOf_eq_length]
  calc _ ≤ (range (s.count j)).length := (hnodup.subperm hsub).length_le
    _ = s.count j := length_range

/-- A job with all its pieces finished has no fewer finished pieces than pieces. -/
theorem le_finishedOf {j : ℕ} (hall : ∀ i < s.count j, (j, i) ∈ s.finished) :
    s.count j ≤ s.finishedOf j := by
  rw [finishedOf_eq_length]
  have hsub : range (s.count j) ⊆ (s.finished.filter fun k => k.1 = j).map Prod.snd := by
    intro i hi
    rw [mem_map]
    refine ⟨(j, i), ?_, rfl⟩
    rw [mem_filter]
    exact ⟨hall i (mem_range.mp hi), by simp⟩
  calc s.count j = (range (s.count j)).length := length_range.symm
    _ ≤ _ := (nodup_range.subperm hsub).length_le

/-- A dispenser that has finished as many pieces of the last job as there are is idle. -/
theorem Inv.idle_of_finishedOf (h : s.Inv) (hcount : s.count s.jobs ≤ s.finishedOf s.jobs) : s.Idle := by
  obtain ⟨hnodup, hsub⟩ := h.pieces s.jobs
  rw [finishedOf_eq_length] at hcount
  -- pieces without repetition, as many as there are, are all of them
  have hperm := (hnodup.subperm hsub).perm_of_length_le (by rw [length_range]; exact hcount)
  have hall : ∀ i < s.count s.jobs, (s.jobs, i) ∈ s.finished := by
    intro i hi
    have hmem := hperm.mem_iff.mpr (mem_range.mpr hi)
    rw [mem_map] at hmem
    obtain ⟨k, hk, rfl⟩ := hmem
    rw [mem_filter, decide_eq_true_eq] at hk
    rw [← hk.2]
    exact hk.1
  constructor
  · by_contra hlt
    exact absurd ((h.valid (hall s.next (by omega))).2.2.2 rfl) (lt_irrefl _)
  · intro t
    by_contra hheld
    obtain ⟨k, hk⟩ := Option.ne_none_iff_exists'.mp hheld
    obtain ⟨-, hjob, -, hlt⟩ := h.current hk
    refine h.fresh hk ?_
    have := hall k.2 hlt
    rwa [← hjob] at this

/-- The finished pieces of the first jobs. -/
theorem countP_finished_lt (s : Tickets T) (n : ℕ) :
    (s.finished.countP fun k => k.1 < n) = ∑ j ∈ Finset.range n, s.finishedOf j := by
  induction n with
  | zero => simp
  | succ n ih =>
    rw [Finset.sum_range_succ, ← ih, finishedOf]
    induction s.finished with
    | nil => rfl
    | cons k rest ih' =>
      simp only [countP_cons, decide_eq_true_eq] at ih' ⊢
      rcases Nat.lt_trichotomy k.1 n with hlt | heq | hgt
      · rw [if_pos (by omega), if_pos hlt, if_neg (by omega)]
        omega
      · rw [if_pos (by omega), if_neg (by omega), if_pos heq]
        omega
      · rw [if_neg (by omega), if_neg (by omega), if_neg (by omega)]
        omega

/-- The jobs before the last one are finished. -/
theorem Inv.countP_past (h : s.Inv) :
    (s.finished.countP fun k => k.1 < s.jobs) = ∑ j ∈ Finset.range s.jobs, s.count j := by
  rw [countP_finished_lt]
  refine Finset.sum_congr rfl fun j hj => ?_
  rw [Finset.mem_range] at hj
  refine le_antisymm (h.finishedOf_le j) (le_finishedOf fun i hi => ?_)
  rcases Nat.eq_zero_or_pos j with rfl | hpos
  · rw [h.start] at hi
    cases hi
  · exact h.past hpos hj hi

/-- The finished pieces are those of the jobs before the last one and those of the last one. -/
theorem Inv.length_finished (h : s.Inv) :
    s.finished.length = (∑ j ∈ Finset.range s.jobs, s.count j) + s.finishedOf s.jobs := by
  have hall : s.finished.length = s.finished.countP fun k => k.1 < s.jobs + 1 := by
    rw [eq_comm, countP_eq_length]
    intro k hk
    rw [decide_eq_true_eq]
    have := (h.valid hk).2.1
    omega
  rw [hall, countP_finished_lt, Finset.sum_range_succ, ← countP_finished_lt, h.countP_past]

/-- There are no more finished pieces than pieces, and when there are as many the dispenser is idle. -/
theorem Inv.length_le (h : s.Inv) : s.finished.length ≤ ∑ j ∈ Finset.range (s.jobs + 1), s.count j := by
  rw [h.length_finished, Finset.sum_range_succ]
  have := h.finishedOf_le s.jobs
  omega

/-- When as many are finished as there are, nothing is held. -/
theorem Inv.idle_of_length (h : s.Inv)
    (hlength : ∑ j ∈ Finset.range (s.jobs + 1), s.count j ≤ s.finished.length) : s.Idle := by
  rw [h.length_finished, Finset.sum_range_succ] at hlength
  exact h.idle_of_finishedOf (by omega)

end Tickets

end Mettle.Lib

import Mettle.Runtime.ParallelWork

/-!
# Waiting for the chunks of a job

`mtp_join` adds up the counters of the slots one after another while chunks are still being completed.
A sum that equals the number of chunks dispatched was taken when all of them were completed
(`Claims.idle_of_join`), also when the counters have wrapped.
-/

open List Function

namespace Mettle.Runtime.Parallel

open Lib

variable {F X C : Type} {p : Pool F X} {threads : ℕ} {W : Thread C → Option (Work F X)}

/-- The chunks that were published. -/
def Pool.total (p : Pool F X) : ℕ := ∑ j ∈ Finset.range (p.published.length + 1), publishedCount p.published j

theorem Pool.total_publish (p : Pool F X) (job : MtpJob F X) (ticket n : ℕ) :
    Pool.total { p with ticket, published := (job, n) :: p.published } = p.total + n := by
  unfold Pool.total
  rw [length_cons, Finset.sum_range_succ, publishedCount_cons, update_self]
  refine congrArg (· + n) (Finset.sum_congr rfl fun j hj => ?_)
  exact update_of_ne (Finset.mem_range.mp hj).ne _ _

/-- The chunks that a slot has completed. -/
def Pool.done (p : Pool F X) (slot : ℕ) : ℕ := p.finished.countP fun r => r.slot = slot

/-- The chunks of earlier jobs that a slot has completed. -/
def Pool.doneBefore (p : Pool F X) (slot : ℕ) : ℕ :=
  p.finished.countP fun r => r.slot = slot ∧ r.job < p.published.length

/-- The counters of the slots below `slot` have been added up. -/
def Joining (p : Pool F X) (slot total : ℕ) : Prop :=
  slot ≤ p.workers + 1 ∧ ∃ seen : ℕ → ℕ, total = (∑ i ∈ Finset.range slot, seen i) % 2 ^ 64 ∧
    ∀ i < slot, p.doneBefore i ≤ seen i ∧ seen i ≤ p.done i

/-- Elements counted slot by slot. -/
theorem sum_countP_slots {α : Type*} (f : α → ℕ) (q : α → Bool) {n : ℕ} {l : List α} (h : ∀ a ∈ l, f a < n) :
    ∑ i ∈ Finset.range n, l.countP (fun a => f a = i ∧ q a = true) = l.countP q := by
  induction l with
  | nil => simp
  | cons a l ih =>
    have hone : ∑ i ∈ Finset.range n, (if f a = i ∧ q a = true then 1 else 0) = if q a = true then 1 else 0 := by
      by_cases hq : q a = true
      · simp only [hq, and_true, if_true]
        rw [Finset.sum_ite_eq, if_pos (Finset.mem_range.mpr (h a (.head _)))]
      · simp [hq]
    simp only [countP_cons, decide_eq_true_eq, Finset.sum_add_distrib, hone]
    rw [ih fun b hb => h b (.tail _ hb)]

theorem Joining.start (p : Pool F X) : Joining p 0 0 := ⟨by omega, fun _ => 0, rfl, fun i hi => by omega⟩

theorem Joining.add {slot total : ℕ} (h : Joining p slot total) (hslot : slot ≤ p.workers)
    (hcompleted : ∀ i, p.completed i = p.done i % 2 ^ 64) :
    Joining p (slot + 1) ((total + p.completed slot) % 2 ^ 64) := by
  obtain ⟨-, seen, htotal, hseen⟩ := h
  refine ⟨by omega, update seen slot (p.done slot), ?_, fun i hi => ?_⟩
  · rw [Finset.sum_range_succ, update_self, hcompleted, htotal]
    have hsum : ∑ i ∈ Finset.range slot, update seen slot (p.done slot) i =
        ∑ i ∈ Finset.range slot, seen i :=
      Finset.sum_congr rfl fun i hi => update_of_ne (Finset.mem_range.mp hi).ne _ _
    omega
  · rcases Nat.lt_succ_iff_lt_or_eq.mp hi with hlt | rfl
    · rw [update_of_ne hlt.ne]
      exact hseen i hlt
    · rw [update_self]
      refine ⟨countP_mono_left fun r _ hr => ?_, le_refl _⟩
      simp only [decide_eq_true_eq] at hr ⊢
      exact hr.1

/-- A chunk of the last job that is completed meanwhile. -/
theorem Joining.finish {p' : Pool F X} {slot total : ℕ} {r : Run F X} (h : Joining p slot total)
    (hworkers : p'.workers = p.workers) (hpublished : p'.published = p.published)
    (hfinished : p'.finished = r :: p.finished) (hr : r.job = p.published.length) : Joining p' slot total := by
  obtain ⟨hslot, seen, htotal, hseen⟩ := h
  refine ⟨by rw [hworkers]; exact hslot, seen, htotal, fun i hi => ?_⟩
  obtain ⟨hbefore, hdone⟩ := hseen i hi
  constructor
  · refine le_trans (le_of_eq ?_) hbefore
    unfold Pool.doneBefore
    rw [hfinished, hpublished, countP_cons, if_neg (by simp [hr]), Nat.add_zero]
  · refine le_trans hdone ?_
    unfold Pool.done
    rw [hfinished, countP_cons]
    omega

namespace Claims

variable (h : Claims threads p W)

include h

theorem finished_lt : ∀ r ∈ p.finished, r.slot < p.workers + 1 :=
  fun _ hr => Nat.lt_succ_of_le (h.finished hr).2

/-- The counters of all slots add up to the number of completed chunks. -/
theorem sum_done : ∑ i ∈ Finset.range (p.workers + 1), p.done i = p.finished.length := by
  have := sum_countP_slots Run.slot (fun _ => true) h.finished_lt
  simpa [Pool.done] using this

/-- The chunks of the earlier jobs, and those of all jobs. -/
theorem sum_doneBefore : (∑ i ∈ Finset.range (p.workers + 1), p.doneBefore i) +
    publishedCount p.published p.published.length = p.total := by
  have hslots := sum_countP_slots Run.slot (fun r => r.job < p.published.length) h.finished_lt
  simp only [decide_eq_true_eq] at hslots
  have hpast := h.tickets.countP_past
  simp only [dispenser, countP_map] at hpast
  unfold Pool.doneBefore
  rw [hslots, Pool.total, Finset.sum_range_succ, ← hpast]
  rfl

/-- The sum of the counters is the number of chunks dispatched only when all are completed. -/
theorem idle_of_join (hthreads : threads ≤ maxThreads) {total : ℕ} (hjoin : Joining p (p.workers + 1) total)
    (hdispatched : total = p.total % 2 ^ 64) : (dispenser p W).Idle := by
  obtain ⟨-, seen, htotal, hseen⟩ := hjoin
  have hlower : ∑ i ∈ Finset.range (p.workers + 1), p.doneBefore i ≤
      ∑ i ∈ Finset.range (p.workers + 1), seen i :=
    Finset.sum_le_sum fun i hi => (hseen i (Finset.mem_range.mp hi)).1
  have hupper : ∑ i ∈ Finset.range (p.workers + 1), seen i ≤
      ∑ i ∈ Finset.range (p.workers + 1), p.done i :=
    Finset.sum_le_sum fun i hi => (hseen i (Finset.mem_range.mp hi)).2
  have hdone := h.sum_done
  have hbefore := h.sum_doneBefore
  have hlength : p.finished.length ≤ p.total := by
    have := h.tickets.length_le
    simpa [dispenser, Pool.total] using this
  have hsmall := h.small
  rw [h.count] at hsmall
  unfold maxThreads at hthreads
  -- the sum is at most one job short of the total, so it cannot differ by a multiple of `2 ^ 64`
  refine h.tickets.idle_of_length ?_
  have hfinal : p.total ≤ p.finished.length := by omega
  simpa [dispenser, Pool.total] using hfinal

end Claims

end Mettle.Runtime.Parallel

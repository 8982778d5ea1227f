import Mettle.Runtime.ParallelSound

/-!
# A parallel range runs every index once

The job that `mtp_dispatch` publishes is the plan of its range: the caller that holds the pool wrote the record itself,
and no other caller writes it before the ticket is stored. So the chunks of a published job cut its range, and once
`mtp_join` has returned each index has been in one call.
-/

namespace Mettle.Runtime.Parallel

open Lib

variable {F X C : Type} {threads : ℕ}

/-! ## Plans -/

/-- The span and the number of chunks are those of a plan of the job's range. -/
def Planned.Job (threads : ℕ) (job : MtpJob F X) (count : ℕ) : Prop :=
  ∃ aim, Planned threads (job.hi - job.lo) aim job.span count

/-- The job that a caller carries, or has put into the record, is planned. -/
def Caller.Carries (threads : ℕ) (record : Option (MtpJob F X)) : Caller F X → Prop
  | .acquire job count | .spawnOnce job count | .spawnLoop job count | .spawned job count | .checkWorkers job count
  | .record job count => Planned.Job threads job count
  | .loadGeneration count | .addDispatched count _ | .storeTicket count _ =>
    ∀ job ∈ record, Planned.Job threads job count
  | _ => True

/-- The callers carry planned jobs, and the record of the pool and the published jobs are planned. -/
structure Plans (threads : ℕ) (s : State F X C) : Prop where
  callers : ∀ c, (s.caller c).Carries threads s.pool.job
  record : ∀ job ∈ s.pool.job, ∃ count, Planned.Job threads job count
  published : ∀ e ∈ s.pool.published, Planned.Job threads e.1 e.2

/-- A dispatched range carries its job with the span of its plan. -/
theorem carries_dispatch (hthreads : threads ≤ maxThreads) (job : MtpJob F X) (minChunk : ℤ)
    (record : Option (MtpJob F X)) : (dispatch threads job minChunk).Carries threads record := by
  unfold dispatch
  simp only
  split
  · trivial
  · split
    · trivial
    · rename_i htotal hcount
      exact mtpPlan_planned hthreads (not_le.mp htotal) (not_lt.mp hcount)

/-- A caller that does not hold the pool carries no job in the record. -/
theorem carries_of_outside {pc : Caller F X} {record record' : Option (MtpJob F X)} (h : pc.Outside threads)
    (hcarries : pc.Carries threads record) : pc.Carries threads record' := by
  cases pc <;> first | exact h.elim | exact hcarries

/-- A caller goes on with what it carries; only the record of the job changes the record. -/
theorem stepCaller_carries {p p' : Pool F X} {choice : Bool} {pc pc' : Caller F X} {spawned : Option ℕ}
    (hstep : stepCaller threads p choice pc = some (p', pc', spawned)) (hcarries : pc.Carries threads p.job)
    (hpublished : ∀ e ∈ p.published, Planned.Job threads e.1 e.2) :
    pc'.Carries threads p'.job ∧ (∀ e ∈ p'.published, Planned.Job threads e.1 e.2) ∧
      (p'.job = p.job ∨ ∃ job count, pc = .record job count ∧ p'.job = some job) := by
  -- the caller writes a job at one step only, when it records it; the span goes unchanged through the others
  cases pc with
  | idle => cases hstep
  | acquire job count =>
    simp only [stepCaller] at hstep
    split at hstep <;> cases hstep
    · exact ⟨trivial, hpublished, .inl rfl⟩
    · exact ⟨hcarries, hpublished, .inl rfl⟩
  | spawnOnce job count | spawnLoop job count =>
    simp only [stepCaller] at hstep
    split at hstep <;> cases hstep <;> exact ⟨hcarries, hpublished, .inl rfl⟩
  | spawned job count | loadGeneration count | addDispatched count generation =>
    cases hstep
    exact ⟨hcarries, hpublished, .inl rfl⟩
  | checkWorkers job count =>
    cases hstep
    refine ⟨?_, hpublished, .inl rfl⟩
    split
    · trivial
    · exact hcarries
  | record job count =>
    cases hstep
    exact ⟨fun job' hjob => Option.some.inj hjob ▸ hcarries, hpublished, .inr ⟨job, count, rfl, rfl⟩⟩
  -- the ticket publishes the recorded job
  | storeTicket count generation =>
    cases hstep
    refine ⟨trivial, fun e he => ?_, .inl rfl⟩
    rcases List.mem_append.mp he with he | he
    · obtain ⟨job, hjob, rfl⟩ := Option.map_eq_some_iff.mp (Option.mem_toList.mp he)
      exact hcarries job hjob
    · exact hpublished e he
  | giveUp job | inline call | storeGeneration generation | storeBudget parked | release =>
    cases hstep
    exact ⟨trivial, hpublished, .inl rfl⟩
  | loadParked =>
    cases hstep
    refine ⟨?_, hpublished, .inl rfl⟩
    split <;> trivial
  | join slot total =>
    cases hstep
    refine ⟨?_, hpublished, .inl rfl⟩
    split
    · trivial
    · split <;> trivial
  | wake wake =>
    cases hstep
    have halike := alike_stepWake p choice wake
    rw [halike.job, halike.published]
    refine ⟨?_, hpublished, .inl rfl⟩
    cases (stepWake p choice wake).2 <;> trivial
  | work work =>
    cases hstep
    obtain ⟨hjob, hpub, -⟩ := stepWork_frame p p.workers work
    rw [hjob, hpub]
    refine ⟨?_, hpublished, .inl rfl⟩
    cases (stepWork p p.workers work).2 <;> trivial

/-- A worker leaves the record and the published jobs alone. -/
theorem stepWorker_frame {p p' : Pool F X} {index : ℕ} {choice : Bool} {pc pc' : Worker F X}
    (hstep : stepWorker p index choice pc = some (p', pc')) : p'.job = p.job ∧ p'.published = p.published := by
  cases pc with
  | unborn => cases hstep
  | await | park | wait | unpark =>
    cases hstep
    exact ⟨rfl, rfl⟩
  | wake seen rounds wake =>
    cases hstep
    have halike := alike_stepWake p choice wake
    exact ⟨halike.job, halike.published⟩
  | work seen work =>
    cases hstep
    obtain ⟨hjob, hpub, -⟩ := stepWork_frame p index work
    exact ⟨hjob, hpub⟩

/-- In every reachable state the carried, the recorded and the published jobs have the span of their plan. -/
theorem plans_reachable [DecidableEq C] {s : State F X C} (hthreads : threads ≤ maxThreads) (h : Reachable threads s) :
    Plans threads s := by
  -- on the run
  induction h with
  | init => exact ⟨fun _ => trivial, fun job hjob => (by cases hjob), fun e he => absurd he List.not_mem_nil⟩
  | @step s _ hs a hstep ih =>
    cases a with
    | dispatch c job minChunk =>
      rw [step] at hstep
      split at hstep
      · cases hstep
        refine ⟨fun c' => ?_, ih.record, ih.published⟩
        rcases eq_or_ne c' c with rfl | hne
        · simp only [Function.update_self]
          exact carries_dispatch hthreads job minChunk _
        · simp only [Function.update_of_ne hne]
          exact ih.callers c'
      · cases hstep
    | caller c choice =>
      obtain ⟨⟨p, pc, spawned⟩, hpc, rfl⟩ := Option.map_eq_some_iff.mp hstep
      obtain ⟨hcarries, hpublished, hjob⟩ := stepCaller_carries hpc (ih.callers c) ih.published
      refine ⟨fun c' => ?_, ?_, hpublished⟩
      swap
      · rcases hjob with hjob | ⟨job, count, hrecord, hjob⟩
        · simpa only [hjob] using ih.record
        · have hplanned := ih.callers c
          rw [hrecord] at hplanned
          rintro job' hjob'
          cases hjob.symm.trans hjob'
          exact ⟨count, hplanned⟩
      rcases eq_or_ne c' c with rfl | hne
      · simp only [Function.update_self]
        exact hcarries
      simp only [Function.update_of_ne hne]
      rcases hjob with hjob | ⟨job, count, hrecord, -⟩
      · rw [hjob]
        exact ih.callers c'
      · -- the caller that writes the record holds the pool
        obtain ⟨holder, hinv⟩ := inv_reachable hthreads hs
        have hholder : holder = some c := by
          by_contra hc
          have := hinv.outside c hc
          rw [hrecord] at this
          exact this
        exact carries_of_outside (hinv.outside c' (by rw [hholder]; simpa using hne.symm)) (ih.callers c')
    -- a worker only reads the published job
    | worker i choice =>
      obtain ⟨⟨p, pc⟩, hpc, rfl⟩ := Option.map_eq_some_iff.mp hstep
      obtain ⟨hjob, hpublished⟩ := stepWorker_frame hpc
      exact ⟨fun c' => by simpa only [hjob] using ih.callers c', by simpa only [hjob] using ih.record,
        by simpa only [hpublished] using ih.published⟩

/-! ## The calls of a range -/

/-- The body is called on a range with the index. -/
def Call.Covers (i : ℤ) : Call F X → Prop
  | .body _ _ lo hi | .slotBody _ _ lo hi _ => lo ≤ i ∧ i < hi

instance (i : ℤ) : DecidablePred (Call.Covers i : Call F X → Prop)
  | .body _ _ lo hi | .slotBody _ _ lo hi _ => inferInstanceAs (Decidable (lo ≤ i ∧ i < hi))

/-- The calls on a range with the index that were made for a job. -/
def Pool.callsAt (p : Pool F X) (job : ℕ) (i : ℤ) : ℕ := p.calls.countP fun r => r.job = job ∧ r.call.Covers i

/-- A chunk covers the indices of its span. -/
theorem covers_chunk {job : MtpJob F X} {chunk slot : ℕ} {i : ℤ} (hi : i < job.hi) :
    (job.chunk chunk slot).Covers i ↔ job.span * chunk ≤ i - job.lo ∧ i - job.lo < job.span * chunk + job.span := by
  have hstop : (if job.lo + job.span * chunk + job.span < job.hi then job.lo + job.span * chunk + job.span else job.hi) =
      min (job.lo + job.span * chunk + job.span) job.hi := by
    split <;> omega
  rw [MtpJob.chunk, mtpRun]
  cases job.slotBody <;> simp only [Call.Covers] <;> omega

/-- The multiple of a length under a number is that of its quotient. -/
theorem eq_ediv_iff {a span : ℤ} {k : ℕ} (hspan : 0 < span) (ha : 0 ≤ a) :
    span * k ≤ a ∧ a < span * k + span ↔ k = (a / span).toNat := by
  have hnat : ((a / span).toNat : ℤ) = a / span := Int.toNat_of_nonneg (Int.ediv_nonneg ha hspan.le)
  rw [← Int.natCast_inj, hnat, eq_comm, Int.ediv_eq_iff_of_pos hspan]
  constructor <;> rintro ⟨hle, hlt⟩ <;> constructor <;> linarith

/-- What has a number is published. -/
theorem mem_of_publication {l : List (MtpJob F X × ℕ)} {j : ℕ} {e : MtpJob F X × ℕ} (h : publication l j = some e) :
    e ∈ l := by
  induction l with
  | nil => cases h
  | cons e' rest ih =>
    rw [publication] at h
    split at h
    · cases h
      exact List.mem_cons_self
    · exact List.mem_cons_of_mem _ (ih h)

/-- When `mtp_join` has returned, every chunk of every job has been called. -/
theorem callsOf_release [DecidableEq C] {s : State F X C} {holder : Option C} (hinv : Inv threads s holder) {c : C}
    (hc : s.caller c = .release) {j n chunk : ℕ} {job : MtpJob F X}
    (hpublished : publication s.pool.published j = some (job, n)) (hchunk : chunk < n) :
    s.pool.callsOf j chunk = 1 := by
  have hholder : holder = some c := by
    by_contra hne
    have houtside := hinv.outside c hne
    rw [hc] at houtside
    exact houtside
  have hquiet := hinv.phase c hholder
  rw [hc] at hquiet
  obtain ⟨hpos, hle⟩ := publication_le hpublished
  have hlt : chunk < publishedCount s.pool.published j := by rwa [publishedCount, hpublished]
  obtain ⟨r, hr, hkey⟩ := List.mem_map.mp (hinv.claims.tickets.complete hquiet.idle hpos hle hlt)
  cases hkey
  refine le_antisymm (hinv.claims.callsOf_le _ _) ?_
  exact List.countP_pos_iff.mpr ⟨r, (hinv.claims.finished hr).1, by simp⟩

/-- When `mtp_join` has returned, each index of the range of a published job is in the range of one call for that job:
the call of the chunk in which the plan puts the index. -/
theorem callsAt_published [DecidableEq C] {s : State F X C} {holder : Option C} (hinv : Inv threads s holder)
    (hplans : Plans threads s) {c : C} (hc : s.caller c = .release) {j n : ℕ} {job : MtpJob F X}
    (hpublished : publication s.pool.published j = some (job, n)) {i : ℤ} (hlo : job.lo ≤ i) (hhi : i < job.hi) :
    s.pool.callsAt j i = 1 := by
  obtain ⟨aim, hplan⟩ : Planned.Job _ job n := hplans.published _ (mem_of_publication hpublished)
  have hspan := hplan.span_pos
  have hoffset : 0 ≤ i - job.lo := by omega
  -- the chunk of the index
  have hchunk : ((i - job.lo) / job.span).toNat < n := by
    have hcover := hplan.cover
    have hquot : (i - job.lo) / job.span < n := Int.ediv_lt_of_lt_mul hspan (by rw [mul_comm]; omega)
    have hnonneg := Int.ediv_nonneg hoffset hspan.le
    omega
  rw [← callsOf_release hinv hc hpublished hchunk, Pool.callsAt, Pool.callsOf]
  refine List.countP_congr fun r hr => ?_
  simp only [decide_eq_true_eq]
  refine and_congr_right ?_
  rintro rfl
  obtain ⟨job', n', hjob', -, hcall⟩ := (hinv.claims.calls hr).1
  obtain ⟨rfl, rfl⟩ := Prod.mk.inj (Option.some.inj (hjob'.symm.trans hpublished))
  rw [hcall, covers_chunk hhi, eq_ediv_iff hspan hoffset]

/-- A parallel range, under every interleaving: when `mtp_join` has returned, each index of the range of each job that
was published is in the range of one call of the body for that job; and in every state the jobs that the callers carry,
the record of the pool and the published jobs have the span of the plan of their range. -/
theorem callsAt_release [DecidableEq C] (requested hardware : ℕ) {s : State F X C}
    (h : Reachable (mtpThreads requested hardware) s) :
    (∀ c, s.caller c = .release → ∀ j n job, publication s.pool.published j = some (job, n) →
      ∀ i, job.lo ≤ i → i < job.hi → s.pool.callsAt j i = 1) ∧ Plans (mtpThreads requested hardware) s := by
  have hthreads : mtpThreads requested hardware ≤ maxThreads := min_le_right _ _
  obtain ⟨holder, hinv⟩ := inv_reachable hthreads h
  have hplans := plans_reachable hthreads h
  exact ⟨fun c hc j n job hpublished i hlo hhi => callsAt_published hinv hplans hc hpublished hlo hhi, hplans⟩

theorem callsAt_release_pair : ∃ s : State Unit Unit Unit, s.pool.callsAt 1 0 = 1 ∧ s.pool.callsAt 1 1 = 1 := by
  have hend : ((run (mtpThreads 2 1) {} pairActions).map fun s =>
      (s.caller (), publication s.pool.published 1)) = some (.release, some ({ pairJob with span := 1 }, 2)) := by
    decide
  obtain ⟨s, hrun, hs⟩ := Option.map_eq_some_iff.mp hend
  obtain ⟨hrelease, hpublished⟩ := Prod.mk.inj hs
  have hcalls := (@callsAt_release Unit Unit Unit _ 2 1 s (reachable_run .init hrun)).1 () hrelease _ _ _ hpublished
  exact ⟨s, hcalls 0 (by decide) (by decide), hcalls 1 (by decide) (by decide)⟩

end Mettle.Runtime.Parallel

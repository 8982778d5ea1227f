import Mettle.Runtime.ParallelJoin
import Mettle.Runtime.ParallelRange

/-!
# The pool runs every chunk once

One caller at a time holds the pool. Between its `ticket` store and the end of its `mtp_join` chunks are
claimed and run; at all other times every published chunk is completed and no thread holds one. This is
what makes it safe to write the job record and to publish the next job.
-/

open Option Function

namespace Mettle.Runtime.Parallel

open Lib

variable {F X C : Type}

/-- Where a worker is in `mtp_work`. -/
def Worker.place : Worker F X → Option (Work F X)
  | .work _ w => some w
  | _ => none

/-- Where a caller is in `mtp_work`. -/
def Caller.place : Caller F X → Option (Work F X)
  | .work w => some w
  | _ => none

/-- Where a thread is in `mtp_work`. -/
def State.place (s : State F X C) : Thread C → Option (Work F X)
  | .inl i => (s.worker i).place
  | .inr c => (s.caller c).place

/-- A caller that does not hold the pool. -/
def Caller.Outside (threads : ℕ) : Caller F X → Prop
  | .idle | .inline _ => True
  | .acquire _ count => count ≤ 4 * threads
  | _ => False

/-- A worker is started before it is counted. -/
def Caller.uncounted : Caller F X → ℕ
  | .spawned _ _ => 1
  | _ => 0

/-- A caller that holds the pool has seen to it that the workers are started. -/
def Caller.pastSpawn : Caller F X → Bool
  | .spawnOnce _ _ => false
  | _ => true

/-- Everything that was published is completed. -/
structure Quiet (p : Pool F X) (W : Thread C → Option (Work F X)) : Prop where
  idle : (dispenser p W).Idle
  dispatched : p.dispatched = p.total % 2 ^ 64

/-- The record is that of the job that was published last. -/
structure Active (p : Pool F X) : Prop where
  record : p.published.head?.map Prod.fst = p.job
  dispatched : p.dispatched = p.total % 2 ^ 64

/-- What holds while a caller that holds the pool is at a place. -/
def Phase (threads : ℕ) (p : Pool F X) (W : Thread C → Option (Work F X)) : Caller F X → Prop
  | .idle | .acquire _ _ | .inline _ => False
  | .spawnOnce _ count | .checkWorkers _ count | .record _ count => Quiet p W ∧ count ≤ 4 * threads
  | .spawnLoop _ count | .spawned _ count => Quiet p W ∧ count ≤ 4 * threads ∧ p.published = []
  | .giveUp _ | .release => Quiet p W
  | .loadGeneration count | .addDispatched count _ => Quiet p W ∧ count ≤ 4 * threads ∧ p.job ≠ none
  | .storeTicket count _ => (dispenser p W).Idle ∧ count ≤ 4 * threads ∧ p.job ≠ none ∧
      p.dispatched = (p.total + count) % 2 ^ 64
  | .storeGeneration _ | .loadParked | .storeBudget _ | .wake _ | .work _ => Active p
  | .join slot total => Active p ∧ Joining p slot total

/-- The invariant of the system, with the caller that holds the pool. -/
structure Inv (threads : ℕ) (s : State F X C) (holder : Option C) : Prop where
  claims : Claims threads s.pool s.place
  busy : s.pool.busy = holder.isSome
  outside : ∀ c, holder ≠ some c → (s.caller c).Outside threads
  spawned : s.pool.spawned = false → s.pool.published = []
  started : ∀ c, holder = some c → (s.caller c).pastSpawn = true → s.pool.spawned = true
  born : ∀ i, s.worker i ≠ .unborn →
    i < s.pool.workers + (holder.map fun c => (s.caller c).uncounted).getD 0
  workers : s.pool.workers + (holder.map fun c => (s.caller c).uncounted).getD 0 ≤ threads
  quiet : holder = none → Quiet s.pool s.place
  phase : ∀ c, holder = some c → Phase threads s.pool s.place (s.caller c)

variable {pc : Caller F X}

/-- A caller that is outside the pool holds no work. -/
theorem place_of_outside {threads : ℕ} (h : pc.Outside threads) : pc.place = none := by
  cases pc <;> first | rfl | exact h.elim

/-- While a thread has not been counted, nothing of its job is published. -/
theorem uncounted_published {threads : ℕ} {p : Pool F X} {W : Thread C → Option (Work F X)} (h : Phase threads p W pc)
    (hone : pc.uncounted ≠ 0) : p.published = [] := by
  cases pc <;> first | exact h.2.2 | exact absurd rfl hone

/-- A caller that holds the pool is in a phase where everything is completed or the record is that of
the last job. -/
theorem Phase.cases {threads : ℕ} {p : Pool F X} {W : Thread C → Option (Work F X)} (h : Phase threads p W pc) :
    (dispenser p W).Idle ∨ Active p := by
  cases pc <;>
    first
    | exact h.elim
    | exact Or.inl h.idle
    | exact Or.inl h.1.idle
    | exact Or.inl h.1
    | exact Or.inr h
    | exact Or.inr h.1

namespace Inv

variable {threads : ℕ} {s : State F X C} {holder : Option C} (h : Inv threads s holder)

include h

/-- A pool in which no job is active has handed everything out. -/
theorem idle_or_active : (dispenser s.pool s.place).Idle ∨ Active s.pool := by
  cases holder with
  | none => exact Or.inl (h.quiet rfl).idle
  | some c => exact (h.phase c rfl).cases

/-- The threads in `mtp_work` are workers and the holder. -/
theorem crew : Crew threads s.pool s.place := by
  classical
  -- a place is held by a worker or by the caller that has the pool
  have hsub : {t | s.place t ≠ none} ⊆
      ((Finset.range threads).map ⟨Sum.inl, Sum.inl_injective⟩ ∪
        (holder.toFinset).map ⟨Sum.inr, Sum.inr_injective⟩ : Finset (Thread C)) := by
    intro t ht
    simp only [Finset.coe_union, Set.mem_union, Finset.mem_coe, Finset.mem_map, Finset.mem_range,
      mem_toFinset, Embedding.coeFn_mk]
    cases t with
    | inl i =>
      refine Or.inl ⟨i, ?_, rfl⟩
      have hborn := h.born i fun hunborn => ht (by simp [State.place, hunborn, Worker.place])
      have := h.workers
      omega
    | inr c =>
      refine Or.inr ⟨c, ?_, rfl⟩
      by_contra hc
      exact ht (place_of_outside (h.outside c hc))
  refine ⟨(Finset.finite_toSet _).subset hsub, ?_, fun i hi hpublished => ?_, fun t k hk => ?_⟩
  · refine (Set.ncard_le_ncard hsub (Finset.finite_toSet _)).trans ?_
    rw [Set.ncard_coe_finset]
    refine (Finset.card_union_le _ _).trans ?_
    rw [Finset.card_map, Finset.card_map, Finset.card_range]
    have : holder.toFinset.card ≤ 1 := by cases holder <;> simp
    omega
  · have hborn := h.born i fun hunborn => hi (by simp [State.place, hunborn, Worker.place])
    cases hholder : holder with
    | none => simpa [hholder] using hborn
    | some c =>
      have hzero : (s.caller c).uncounted = 0 := by
        by_contra hone
        exact hpublished (uncounted_published (h.phase c hholder) hone)
      simpa [hholder, hzero] using hborn
  · rcases h.idle_or_active with hidle | hactive
    · have hnone := hidle.2 t
      simp only [dispenser] at hnone
      rw [hnone] at hk
      cases hk
    · exact hactive.record

end Inv

/-! ## Steps of one thread -/

variable {threads : ℕ} {p p' : Pool F X} {W W' : Thread C → Option (Work F X)}

/-- How many chunks a pool has depends on what is published. -/
theorem Pool.total_congr (h : p'.published = p.published) : p'.total = p.total := by
  unfold Pool.total
  rw [h]

/-- A quiet pool stays quiet while the published and dispatched jobs do. -/
theorem Quiet.congr (h : Quiet p W) (hidle : (dispenser p' W').Idle) (hpublished : p'.published = p.published)
    (hdispatched : p'.dispatched = p.dispatched) : Quiet p' W' :=
  ⟨hidle, by rw [hdispatched, h.dispatched, Pool.total_congr hpublished]⟩

/-- An active pool stays active while its job does. -/
theorem Active.congr (h : Active p) (hpublished : p'.published = p.published) (hjob : p'.job = p.job)
    (hdispatched : p'.dispatched = p.dispatched) : Active p' :=
  ⟨by rw [hpublished, hjob, h.record], by rw [hdispatched, h.dispatched, Pool.total_congr hpublished]⟩

/-- A step of another thread keeps the phase. -/
theorem Phase.congr {pc : Caller F X} (h : Phase threads p W pc)
    (hidle : (dispenser p W).Idle → (dispenser p' W').Idle) (hpublished : p'.published = p.published)
    (hjob : p'.job = p.job) (hdispatched : p'.dispatched = p.dispatched)
    (hjoin : ∀ slot total, Joining p slot total → Joining p' slot total) : Phase threads p' W' pc := by
  have hquiet : Quiet p W → Quiet p' W' := fun hq => hq.congr (hidle hq.idle) hpublished hdispatched
  have hactive : Active p → Active p' := fun ha => ha.congr hpublished hjob hdispatched
  cases pc with
  | idle | acquire | inline => exact h
  | spawnOnce | checkWorkers | record => exact ⟨hquiet h.1, h.2⟩
  | spawnLoop | spawned => exact ⟨hquiet h.1, h.2.1, hpublished.trans h.2.2⟩
  | giveUp | release => exact hquiet h
  | loadGeneration | addDispatched => exact ⟨hquiet h.1, h.2.1, by rw [hjob]; exact h.2.2⟩
  | storeTicket =>
    refine ⟨hidle h.1, h.2.1, by rw [hjob]; exact h.2.2.1, ?_⟩
    rw [hdispatched, h.2.2.2, Pool.total_congr hpublished]
  | storeGeneration | loadParked | storeBudget | wake | work => exact hactive h
  | join slot total => exact ⟨hactive h.1, hjoin slot total h.2⟩

variable [DecidableEq C]

/-- Moving a caller moves its own work only. -/
theorem place_caller (p : Pool F X) (s : State F X C) (worker : ℕ → Worker F X) (c : C) (pc : Caller F X)
    (hworker : ∀ i, (worker i).place = (s.worker i).place) :
    State.place ⟨p, worker, update s.caller c pc⟩ = update s.place (.inr c) pc.place := by
  funext t
  cases t with
  | inl i =>
    rw [update_of_ne (by simp)]
    exact hworker i
  | inr c' =>
    by_cases hc : c' = c
    · subst hc
      simp [State.place]
    · rw [update_of_ne (by simpa using hc)]
      simp [State.place, update_of_ne hc]

/-- So does moving a worker. -/
theorem place_worker (p : Pool F X) (s : State F X C) (i : ℕ) (pc : Worker F X) :
    State.place ⟨p, update s.worker i pc, s.caller⟩ =
      update s.place (.inl i) pc.place := by
  funext t
  cases t with
  | inl i' =>
    by_cases hi : i' = i
    · subst hi
      simp [State.place]
    · rw [update_of_ne (by simpa using hi)]
      simp [State.place, update_of_ne hi]
  | inr c => rw [update_of_ne (by simp)]; rfl

/-- Taking no work from a thread that has none. -/
theorem update_place_none {t : Thread C} (h : W t = none) : update W t none = W := by
  rw [← h, update_eq_self]

namespace Inv

variable {s : State F X C} {holder : Option C}

/-- A worker steps. -/
theorem worker_step (h : Inv threads s holder) {i : ℕ} (hborn : s.worker i ≠ .unborn) {pc : Worker F X}
    (hclaims : Claims threads p' (update s.place (.inl i) pc.place))
    (hpublished : p'.published = s.pool.published) (hjob : p'.job = s.pool.job)
    (hbusy : p'.busy = s.pool.busy) (hworkers : p'.workers = s.pool.workers)
    (hspawned : p'.spawned = s.pool.spawned) (hdispatched : p'.dispatched = s.pool.dispatched)
    (hidle : (dispenser s.pool s.place).Idle →
      (dispenser p' (update s.place (.inl i) pc.place)).Idle)
    (hjoin : ∀ slot total, Joining s.pool slot total → Joining p' slot total) :
    Inv threads ⟨p', update s.worker i pc, s.caller⟩ holder := by
  refine {
    claims := by rw [place_worker]; exact hclaims
    busy := hbusy.trans h.busy
    outside := h.outside
    spawned := fun hs => hpublished.trans (h.spawned (hspawned.symm.trans hs))
    started := fun c hc hpast => hspawned.trans (h.started c hc hpast)
    born := fun j hj => ?_
    workers := by simp only [hworkers]; exact h.workers
    quiet := fun hnone => ?_
    phase := fun c hc => ?_ }
  · simp only [hworkers]
    by_cases hji : j = i
    · rw [hji]
      exact h.born i hborn
    · simp only [update_of_ne hji] at hj
      exact h.born j hj
  · rw [place_worker]
    have hquiet := h.quiet hnone
    exact hquiet.congr (hidle hquiet.idle) hpublished hdispatched
  · rw [place_worker]
    exact (h.phase c hc).congr hidle hpublished hjob hdispatched hjoin

variable {c : C} {pc : Caller F X}

/-- The caller that holds the pool steps and keeps it. -/
theorem holder_step (h : Inv threads s (some c)) {worker : ℕ → Worker F X}
    (hworker : ∀ i, (worker i).place = (s.worker i).place)
    (hclaims : Claims threads p' (update s.place (.inr c) pc.place)) (hbusy : p'.busy = true)
    (hspawned : p'.spawned = true ∨ p'.published = [] ∧ pc.pastSpawn = false)
    (hborn : ∀ i, worker i ≠ .unborn → i < p'.workers + pc.uncounted) (hworkers : p'.workers + pc.uncounted ≤ threads)
    (hphase : Phase threads p' (update s.place (.inr c) pc.place) pc) :
    Inv threads ⟨p', worker, update s.caller c pc⟩ (some c) := by
  refine {
    claims := by rw [place_caller p' s worker c pc hworker]; exact hclaims
    busy := hbusy
    outside := fun c' hc' => ?_
    spawned := fun hs => (hspawned.resolve_left (by simpa using hs)).1
    started := fun c' hc' hpast => ?_
    born := fun i hi => by simpa using hborn i hi
    workers := by simpa using hworkers
    quiet := fun hnone => by cases hnone
    phase := fun c' hc' => ?_ }
  · have hne : c' ≠ c := fun heq => hc' (congrArg some heq.symm)
    simp only [update_of_ne hne]
    exact h.outside c' hc'
  · cases hc'
    refine hspawned.resolve_right fun hno => ?_
    simp only [update_self] at hpast
    rw [hno.2] at hpast
    cases hpast
  · cases hc'
    rw [place_caller p' s worker c pc hworker]
    simpa using hphase

/-- A caller that does not hold the pool stays outside. -/
theorem outside_step (h : Inv threads s holder) (hc : holder ≠ some c) (hpc : pc.Outside threads) :
    Inv threads { s with caller := update s.caller c pc } holder := by
  have hplace : State.place { s with caller := update s.caller c pc } = s.place := by
    rw [place_caller s.pool s s.worker c pc fun _ => rfl, place_of_outside hpc]
    exact update_place_none (place_of_outside (h.outside c hc))
  have hother : ∀ c', holder = some c' → update s.caller c pc c' = s.caller c' := by
    intro c' hc'
    refine update_of_ne ?_ _ _
    rintro rfl
    exact hc hc'
  have huncounted : (holder.map fun c' => (update s.caller c pc c').uncounted).getD 0 =
      (holder.map fun c' => (s.caller c').uncounted).getD 0 := by
    cases hholder : holder with
    | none => rfl
    | some c' => simp only [map_some, getD_some, hother c' hholder]
  refine {
    claims := by rw [hplace]; exact h.claims
    busy := h.busy
    outside := fun c' hc' => ?_
    spawned := h.spawned
    started := fun c' hc' hpast => h.started c' hc' (by simpa only [hother c' hc'] using hpast)
    born := by simp only [huncounted]; exact h.born
    workers := by simp only [huncounted]; exact h.workers
    quiet := by rw [hplace]; exact h.quiet
    phase := fun c' hc' => by
      rw [hplace]
      simp only [hother c' hc']
      exact h.phase c' hc' }
  by_cases hcc : c' = c
  · simp only [hcc, update_self]
    exact hpc
  · simp only [update_of_ne hcc]
    exact h.outside c' hc'

/-- The caller that holds the pool gives it back. -/
theorem release_step (h : Inv threads s (some c)) (hquiet : Quiet s.pool s.place) (hplace : (s.caller c).place = none)
    (huncounted : (s.caller c).uncounted = 0) (hpc : pc.Outside threads) :
    Inv threads ⟨{ s.pool with busy := false }, s.worker, update s.caller c pc⟩ none := by
  have hsame : State.place ⟨{ s.pool with busy := false }, s.worker, update s.caller c pc⟩ =
      s.place := by
    rw [place_caller _ s s.worker c pc fun _ => rfl, place_of_outside hpc]
    exact update_place_none hplace
  refine {
    claims := by rw [hsame]; exact h.claims.congr rfl rfl rfl rfl rfl rfl
    busy := rfl
    outside := fun c' _ => ?_
    spawned := h.spawned
    started := fun c' hc' => by cases hc'
    born := by simpa [huncounted] using h.born
    workers := by simpa [huncounted] using h.workers
    quiet := fun _ => by rw [hsame]; exact hquiet.congr hquiet.idle rfl rfl
    phase := fun c' hc' => by cases hc' }
  by_cases hcc : c' = c
  · simp only [hcc, update_self]
    exact hpc
  · simp only [update_of_ne hcc]
    exact h.outside c' fun heq => hcc (some.inj heq).symm

end Inv

/-! ## Workers -/

/-- A pool that differs in the fields that only decide who is woken. -/
structure Alike (p p' : Pool F X) : Prop where
  ticket : p'.ticket = p.ticket
  published : p'.published = p.published
  completed : p'.completed = p.completed
  finished : p'.finished = p.finished
  calls : p'.calls = p.calls
  workers : p'.workers = p.workers
  job : p'.job = p.job
  busy : p'.busy = p.busy
  spawned : p'.spawned = p.spawned
  dispatched : p'.dispatched = p.dispatched

theorem Alike.refl (p : Pool F X) : Alike p p := ⟨rfl, rfl, rfl, rfl, rfl, rfl, rfl, rfl, rfl, rfl⟩

omit [DecidableEq C] in
/-- The claims carry over to a pool that is alike. -/
theorem Alike.claims (h : Alike p p') (hclaims : Claims threads p W) : Claims threads p' W :=
  hclaims.congr h.ticket h.published h.completed h.finished h.calls h.workers

omit [DecidableEq C] in
/-- So does the dispenser of the tickets. -/
theorem Alike.dispenser (h : Alike p p') (W : Thread C → Option (Work F X)) :
    dispenser p' W = dispenser p W := by
  unfold Parallel.dispenser
  rw [h.published, h.ticket, h.finished]

/-- So does a join that is under way. -/
theorem Alike.joining (h : Alike p p') {slot total : ℕ} (hjoin : Joining p slot total) :
    Joining p' slot total := by
  unfold Joining Pool.doneBefore Pool.done at hjoin ⊢
  rw [h.workers, h.finished, h.published]
  exact hjoin

/-- Waking workers changes nothing that the claims are about. -/
theorem alike_stepWake (p : Pool F X) (succeeds : Bool) (w : Wake) : Alike p (stepWake p succeeds w).1 := by
  unfold stepWake
  split
  · exact .refl p
  · split
    · exact ⟨rfl, rfl, rfl, rfl, rfl, rfl, rfl, rfl, rfl, rfl⟩
    · exact .refl p

namespace Inv

variable {s : State F X C} {holder : Option C}

variable {i : ℕ} {choice : Bool} {c : C} {pc : Caller F X} {spawned : Option ℕ}

/-- A worker steps outside `mtp_work`. -/
theorem worker_stutter (h : Inv threads s holder) (hborn : s.worker i ≠ .unborn) (hplace : (s.worker i).place = none)
    {pc : Worker F X} (hpc : pc.place = none) (halike : Alike s.pool p') :
    Inv threads ⟨p', update s.worker i pc, s.caller⟩ holder := by
  have hsame : update s.place (.inl i) pc.place = s.place := by
    rw [hpc]
    exact update_place_none hplace
  refine h.worker_step hborn (by rw [hsame]; exact halike.claims h.claims) halike.published halike.job
    halike.busy halike.workers halike.spawned halike.dispatched (fun hidle => ?_)
    fun slot total => halike.joining
  rw [hsame, halike.dispenser]
  exact hidle

omit [DecidableEq C] in
/-- A step of the work of one thread keeps the join of another. -/
theorem stepWork_joining (h : Inv threads s holder) {t : Thread C} {w : Work F X} (ht : s.place t = some w)
    {slot total : ℕ} (hjoin : Joining s.pool slot total) :
    Joining (stepWork s.pool (slotOf s.pool.workers t) w).1 slot total := by
  obtain ⟨-, hpublished, -, hworkers, -, -⟩ := stepWork_frame s.pool (slotOf s.pool.workers t) w
  rcases stepWork_finished s.pool (slotOf s.pool.workers t) w with hsame | ⟨r, hr, hfinished⟩
  · unfold Joining Pool.doneBefore Pool.done at hjoin ⊢
    rw [hsame, hpublished, hworkers]
    exact hjoin
  · refine hjoin.finish hworkers hpublished hfinished ?_
    have hheld : (dispenser s.pool s.place).held t = some (r.job, r.chunk) := by
      simp only [dispenser, ht, Option.bind_some, Work.claim_of_called hr]
    exact (h.claims.tickets.current hheld).2.1

/-- A step of a worker keeps the invariant. -/
theorem stepWorker (h : Inv threads s holder) (hthreads : threads ≤ maxThreads) {pc : Worker F X}
    (hstep : stepWorker s.pool i choice (s.worker i) = some (p', pc)) :
    Inv threads ⟨p', update s.worker i pc, s.caller⟩ holder := by
  -- a worker that is not born takes no step
  have hborn : s.worker i ≠ .unborn := by
    intro hw
    rw [hw] at hstep
    cases hstep
  have hplace : s.place (.inl i) = (s.worker i).place := rfl
  have hstutter : ∀ {q : Pool F X} {pc : Worker F X}, (s.worker i).place = none → pc.place = none → Alike s.pool q →
      Inv threads ⟨q, update s.worker i pc, s.caller⟩ holder :=
    fun hplace hpc halike => h.worker_stutter hborn hplace hpc halike
  generalize s.worker i = now at hstep hplace hstutter
  cases now with
  | unborn => cases hstep
  | await seen rounds =>
    rw [Parallel.stepWorker] at hstep
    simp only [some.injEq, Prod.mk.injEq] at hstep
    obtain ⟨rfl, rfl⟩ := hstep
    split
    · split
      · exact hstutter rfl rfl (.refl _)
      · exact hstutter rfl rfl (.refl _)
    · refine h.worker_step hborn ?_ rfl rfl rfl rfl rfl rfl (fun hidle => ?_) fun slot total hjoin => hjoin
      · refine h.claims.move h.crew.finite ?_ ?_ (fun hadd => by cases hadd) (fun r v ho => by cases ho)
          fun c c' hc => by cases hc
        all_goals
          rw [hplace]
          rfl
      · rw [dispenser_update]
        refine ⟨hidle.1, fun t => ?_⟩
        simp only [update_apply]
        split
        · rfl
        · exact hidle.2 t
  | park _ _ | unpark _ _ =>
    cases hstep
    exact hstutter rfl rfl ⟨rfl, rfl, rfl, rfl, rfl, rfl, rfl, rfl, rfl, rfl⟩
  | wait seen rounds =>
    cases hstep
    exact hstutter rfl rfl (.refl _)
  | wake seen rounds w =>
    cases hstep
    refine hstutter rfl ?_ (alike_stepWake s.pool choice w)
    cases (stepWake s.pool choice w).2 <;> rfl
  | work seen w =>
    cases hstep
    obtain ⟨hjob, hpublished, hbusy, hworkers, hspawned, hdispatched⟩ := stepWork_frame s.pool i w
    have hpc : ∀ o : Option (Work F X), (Worker.afterWork seen o).place = o := by
      intro o
      cases o <;> rfl
    refine h.worker_step hborn ?_ hpublished hjob hbusy hworkers hspawned hdispatched ?_
      fun slot total hjoin => h.stepWork_joining hplace hjoin
    · rw [hpc]
      exact h.claims.work h.crew hthreads hplace
    · intro hidle
      rw [hpc]
      exact h.claims.idle_work h.crew hthreads hidle hplace

/-! ## Callers -/

/-- The caller that holds the pool steps outside `mtp_work`. -/
theorem holder_stutter (h : Inv threads s (some c)) (hplace : (s.caller c).place = none) (hpc : pc.place = none)
    (hclaims : Claims threads p' s.place) (hbusy : p'.busy = s.pool.busy)
    (hspawned : p'.spawned = true ∨ p'.published = [] ∧ pc.pastSpawn = false)
    (hworkers : p'.workers + pc.uncounted = s.pool.workers + (s.caller c).uncounted)
    (hphase : Phase threads p' s.place pc) : Inv threads ⟨p', s.worker, update s.caller c pc⟩ (some c) := by
  have hsame : update s.place (.inr c) pc.place = s.place := by
    rw [hpc]
    exact update_place_none hplace
  refine h.holder_step (fun _ => rfl) (by rw [hsame]; exact hclaims) (hbusy.trans h.busy) hspawned
    (fun i hi => ?_) ?_ (by rw [hsame]; exact hphase)
  · rw [hworkers]
    exact h.born i hi
  · rw [hworkers]
    exact h.workers

/-- The caller that holds the pool enters `mtp_work`. -/
theorem holder_enter (h : Inv threads s (some c)) (hplace : (s.caller c).place = none)
    (hpast : (s.caller c).pastSpawn = true) (hcounted : (s.caller c).uncounted = 0) (halike : Alike s.pool p')
    (hactive : Active s.pool) : Inv threads ⟨p', s.worker, update s.caller c (.work .load)⟩ (some c) := by
  have hnone : s.place (.inr c) = none := hplace
  have hmove : Claims threads s.pool (update s.place (.inr c) (some .load)) := by
    refine h.claims.move h.crew.finite (by rw [hnone]; rfl) (by rw [hnone]; rfl) (fun hadd => by cases hadd)
      (fun r v ho => by cases ho) fun c₁ c₂ hc _ hplace₂ => ?_
    cases hc
    by_contra hne
    exact hplace₂ (place_of_outside (h.outside c₂ fun heq => hne (some.inj heq).symm))
  refine h.holder_step (fun _ => rfl) (halike.claims hmove) (halike.busy.trans h.busy)
    (Or.inl (halike.spawned.trans (h.started c rfl hpast))) (fun i hi => ?_) ?_
    (hactive.congr halike.published halike.job halike.dispatched)
  · have := h.born i hi
    rw [map_some, getD_some, hcounted] at this
    rw [halike.workers]
    exact this
  · have := h.workers
    rw [map_some, getD_some, hcounted] at this
    rw [halike.workers]
    exact this

/-- A caller that does not hold the pool. -/
theorem stepCaller_outside (h : Inv threads s holder) (hc : holder ≠ some c)
    (hstep : stepCaller threads s.pool choice (s.caller c) = some (p', pc, spawned)) :
    ∃ holder', Inv threads ⟨p', spawn s.worker spawned, update s.caller c pc⟩ holder' := by
  have hout := h.outside c hc
  cases hpc : s.caller c with
  | idle =>
    rw [hpc] at hstep
    cases hstep
  | inline call =>
    rw [hpc, stepCaller] at hstep
    cases hstep
    exact ⟨holder, h.outside_step hc trivial⟩
  | acquire job count =>
    rw [hpc] at hout
    rw [hpc, stepCaller] at hstep
    split at hstep
    · cases hstep
      exact ⟨holder, h.outside_step hc trivial⟩
    · rename_i hbusy
      cases hstep
      -- the pool is free: this caller takes it
      have hnone : holder = none := by
        have := h.busy
        cases holder with
        | none => rfl
        | some c' => exact absurd this hbusy
      subst hnone
      have hquiet := h.quiet rfl
      have hplace : State.place ⟨{ s.pool with busy := true }, s.worker,
          update s.caller c (.spawnOnce job count)⟩ = s.place := by
        rw [place_caller _ s s.worker c _ fun _ => rfl]
        refine update_place_none ?_
        simp only [State.place, hpc, Caller.place]
      refine ⟨some c, ?_⟩
      exact {
        claims := by rw [spawn, hplace]; exact h.claims.congr rfl rfl rfl rfl rfl rfl
        busy := rfl
        outside := fun c' hc' => by
          have hne : c' ≠ c := fun heq => hc' (congrArg some heq.symm)
          simp only [update_of_ne hne]
          exact h.outside c' (by simp)
        spawned := h.spawned
        started := fun c' hc' hpast => by
          cases hc'
          simp only [update_self] at hpast
          cases hpast
        born := by simpa [Caller.uncounted, spawn] using h.born
        workers := by simpa [Caller.uncounted] using h.workers
        quiet := fun hnone => by cases hnone
        phase := fun c' hc' => by
          cases hc'
          rw [spawn, hplace]
          simp only [update_self]
          exact ⟨hquiet.congr hquiet.idle rfl rfl, hout⟩ }
  | _ =>
    rw [hpc] at hout
    exact hout.elim

/-- A step of the caller that holds the pool to which the chunks and the workers are what they were. -/
theorem holder_stays (h : Inv threads s (some c)) {now : Caller F X} (hnow : s.caller c = now)
    (hplace : now.place = none) (hpc : pc.place = none) (hcounted : pc.uncounted = now.uncounted)
    (hclaims : Claims threads p' s.place) (hbusy : p'.busy = s.pool.busy) (hspawned : p'.spawned = true)
    (hworkers : p'.workers = s.pool.workers) (hphase : Phase threads p' s.place pc) :
    ∃ holder', Inv threads ⟨p', s.worker, update s.caller c pc⟩ holder' :=
  ⟨some c, h.holder_stutter (hnow ▸ hplace) hpc hclaims hbusy (Or.inl hspawned) (by rw [hworkers, hcounted, hnow])
    hphase⟩

/-- The caller that holds the pool. -/
theorem stepCaller_holder (h : Inv threads s (some c)) (hthreads : threads ≤ maxThreads)
    (hstep : stepCaller threads s.pool choice (s.caller c) = some (p', pc, spawned)) :
    ∃ holder', Inv threads ⟨p', spawn s.worker spawned, update s.caller c pc⟩ holder' := by
  have hphase := h.phase c rfl
  have hstarted := h.started c rfl
  have hborn := h.born
  have hworkers := h.workers
  rw [map_some, getD_some] at hborn hworkers
  generalize hpc : s.caller c = now at hphase hstarted hstep hborn hworkers
  cases now with
  | idle | acquire _ _ | inline _ => exact hphase.elim
  | spawnOnce job count =>
    obtain ⟨hquiet, hcount⟩ := hphase
    rw [stepCaller] at hstep
    split at hstep
    · rename_i hspawned
      cases hstep
      exact h.holder_stays hpc rfl rfl rfl h.claims rfl hspawned rfl ⟨hquiet, hcount⟩
    · rename_i hspawned
      cases hstep
      exact h.holder_stays hpc rfl rfl rfl (h.claims.congr rfl rfl rfl rfl rfl rfl) rfl rfl rfl
        ⟨hquiet.congr hquiet.idle rfl rfl, hcount, h.spawned (by simpa using hspawned)⟩
  | spawnLoop job count =>
    obtain ⟨hquiet, hcount, hpublished⟩ := hphase
    rw [stepCaller] at hstep
    split at hstep
    · rename_i hspawn
      cases hstep
      -- a worker is started with the next index
      have hunborn : s.worker s.pool.workers = .unborn := by
        by_contra hne
        exact absurd (hborn _ hne) (lt_irrefl _)
      have hplace : ∀ i, (spawn s.worker (some s.pool.workers) i).place = (s.worker i).place := by
        intro i
        rw [spawn, update_apply]
        split
        · rename_i hi
          rw [hi, hunborn]
          rfl
        · rfl
      have hsame : update s.place (.inr c) (Caller.spawned job count).place = s.place :=
        update_place_none (by simp only [State.place, hpc, Caller.place])
      refine ⟨some c, h.holder_step hplace (by rw [hsame]; exact h.claims) h.busy (Or.inl (hstarted rfl))
        (fun i hi => ?_) hspawn.1.le (by rw [hsame]; exact ⟨hquiet, hcount, hpublished⟩)⟩
      rw [spawn, update_apply] at hi
      rw [Caller.uncounted]
      split at hi
      · omega
      · exact Nat.lt_succ_of_lt (hborn i hi)
    · cases hstep
      exact h.holder_stays hpc rfl rfl rfl h.claims rfl (hstarted rfl) rfl ⟨hquiet, hcount⟩
  | spawned job count =>
    obtain ⟨hquiet, hcount, hpublished⟩ := hphase
    cases hstep
    exact ⟨some c, h.holder_stutter (by rw [hpc]; rfl) rfl (h.claims.grow hpublished _) rfl (Or.inl (hstarted rfl))
      (by rw [hpc]; rfl) ⟨hquiet.congr hquiet.idle rfl rfl, hcount, hpublished⟩⟩
  | checkWorkers job count =>
    rw [stepCaller] at hstep
    split at hstep
    · cases hstep
      exact h.holder_stays hpc rfl rfl rfl h.claims rfl (hstarted rfl) rfl hphase.1
    · cases hstep
      exact h.holder_stays hpc rfl rfl rfl h.claims rfl (hstarted rfl) rfl hphase
  | giveUp job =>
    cases hstep
    exact ⟨none, h.release_step hphase (by rw [hpc]; rfl) (by rw [hpc]; rfl) trivial⟩
  | record job count =>
    obtain ⟨hquiet, hcount⟩ := hphase
    cases hstep
    exact h.holder_stays hpc rfl rfl rfl (h.claims.congr rfl rfl rfl rfl rfl rfl) rfl (hstarted rfl) rfl
      ⟨hquiet.congr hquiet.idle rfl rfl, hcount, by simp⟩
  | loadGeneration count =>
    cases hstep
    exact h.holder_stays hpc rfl rfl rfl h.claims rfl (hstarted rfl) rfl hphase
  | addDispatched count generation =>
    obtain ⟨hquiet, hcount, hjob⟩ := hphase
    cases hstep
    refine h.holder_stays hpc rfl rfl rfl (h.claims.congr rfl rfl rfl rfl rfl rfl) rfl (hstarted rfl) rfl
      ⟨hquiet.idle, hcount, hjob, ?_⟩
    change (s.pool.dispatched + count) % 2 ^ 64 = (s.pool.total + count) % 2 ^ 64
    rw [hquiet.dispatched]
    omega
  | storeTicket count generation =>
    obtain ⟨hidle, hcount, hjob, hdispatched⟩ := hphase
    obtain ⟨job, hjob⟩ := ne_none_iff_exists'.mp hjob
    have hentry : (s.pool.job.map fun job => (job, count)).toList ++ s.pool.published =
        (job, count) :: s.pool.published := by rw [hjob]; rfl
    rw [stepCaller, hentry] at hstep
    cases hstep
    refine h.holder_stays hpc rfl rfl rfl (h.claims.publish h.crew hidle hthreads hcount) rfl (hstarted rfl) rfl
      ⟨hjob.symm, ?_⟩
    change s.pool.dispatched = Pool.total { s.pool with
      ticket := count, published := (job, count) :: s.pool.published } % 2 ^ 64
    rw [hdispatched, Pool.total_publish]
  | storeGeneration _ | storeBudget _ =>
    cases hstep
    exact h.holder_stays hpc rfl rfl rfl (h.claims.congr rfl rfl rfl rfl rfl rfl) rfl (hstarted rfl) rfl
      (Active.congr hphase rfl rfl rfl)
  | loadParked =>
    rw [stepCaller] at hstep
    split at hstep
    · cases hstep
      exact h.holder_stays hpc rfl rfl rfl h.claims rfl (hstarted rfl) rfl hphase
    · cases hstep
      exact ⟨some c, h.holder_enter (by rw [hpc]; rfl) (by rw [hpc]; rfl) (by rw [hpc]; rfl) (.refl _) hphase⟩
  | wake w =>
    have halike := alike_stepWake s.pool choice w
    rw [stepCaller] at hstep
    simp only [some.injEq, Prod.mk.injEq] at hstep
    obtain ⟨rfl, rfl, rfl⟩ := hstep
    cases (stepWake s.pool choice w).2 with
    | none => exact ⟨some c, h.holder_enter (by rw [hpc]; rfl) (by rw [hpc]; rfl) (by rw [hpc]; rfl) halike hphase⟩
    | some w' =>
      exact h.holder_stays hpc rfl rfl rfl (halike.claims h.claims) halike.busy (halike.spawned.trans (hstarted rfl))
        halike.workers (Active.congr hphase halike.published halike.job halike.dispatched)
  | work w =>
    have hplace : s.place (.inr c) = some w := by simp only [State.place, hpc, Caller.place]
    rw [stepCaller] at hstep
    simp only [some.injEq, Prod.mk.injEq] at hstep
    obtain ⟨rfl, rfl, rfl⟩ := hstep
    obtain ⟨hjob, hpublished, hbusy, hcrew, hspawned, hdispatched⟩ :=
      stepWork_frame s.pool s.pool.workers w
    have hactive := Active.congr hphase hpublished hjob hdispatched
    have hafter : ∀ o : Option (Work F X), (Caller.afterWork o).place = o ∧
        (Caller.afterWork o).uncounted = 0 := by
      intro o
      cases o <;> exact ⟨rfl, rfl⟩
    have hclaims := h.claims.work h.crew hthreads hplace
    obtain ⟨hplace', huncounted⟩ := hafter (stepWork s.pool s.pool.workers w).2
    refine ⟨some c, h.holder_step (fun _ => rfl) (by rw [hplace']; exact hclaims) (hbusy.trans h.busy)
      (Or.inl (hspawned.trans (hstarted rfl))) (by rw [hcrew, huncounted]; exact hborn)
      (by rw [hcrew, huncounted]; exact hworkers) ?_⟩
    cases (stepWork s.pool s.pool.workers w).2 with
    | none => exact ⟨hactive, Joining.start _⟩
    | some w' => exact hactive
  | join slot total =>
    obtain ⟨hactive, hjoin⟩ := hphase
    rw [stepCaller] at hstep
    split at hstep
    · rename_i hslot
      cases hstep
      exact h.holder_stays hpc rfl rfl rfl h.claims rfl (hstarted rfl) rfl ⟨hactive, hjoin.add hslot h.claims.completed⟩
    · rename_i hslot
      split at hstep
      · rename_i htotal
        cases hstep
        -- all counters have been read and their sum is the number dispatched
        have hend : slot = s.pool.workers + 1 := by
          have := hjoin.1
          omega
        rw [hend] at hjoin
        have hidle := h.claims.idle_of_join hthreads hjoin (htotal.trans hactive.dispatched)
        exact h.holder_stays hpc rfl rfl rfl h.claims rfl (hstarted rfl) rfl ⟨hidle, hactive.dispatched⟩
      · cases hstep
        exact h.holder_stays hpc rfl rfl rfl h.claims rfl (hstarted rfl) rfl ⟨hactive, Joining.start _⟩
  | release =>
    cases hstep
    exact ⟨none, h.release_step hphase (by rw [hpc]; rfl) (by rw [hpc]; rfl) trivial⟩

end Inv

/-! ## Runs -/

omit [DecidableEq C] in
theorem place_init (t : Thread C) : State.place ({} : State F X C) t = none := by
  cases t <;> rfl

omit [DecidableEq C] in
theorem inv_init (threads : ℕ) : Inv threads ({} : State F X C) none where
  claims := {
    tickets := {
      nodup := List.nodup_nil
      apart := fun hk => by simp [dispenser, place_init] at hk
      fresh := fun hk => by simp [dispenser, place_init] at hk
      current := fun hk => by simp [dispenser, place_init] at hk
      valid := fun hk => by cases hk
      drawn := fun hi => by simp [dispenser, ticketNext] at hi
      past := fun _ hlt => by simp [dispenser] at hlt
      start := rfl }
    count := rfl
    small := Nat.zero_le _
    misses := fun _ => by
      have hempty : {t : Thread C | (State.place ({} : State F X C) t).any Work.isAdd = true} = ∅ := by
        ext t
        simp [place_init]
      rw [hempty]
      simp [ticketNext]
    completed := fun i => rfl
    stored := fun hw => by rw [place_init] at hw; cases hw
    slots := fun hw => by rw [place_init] at hw; cases hw
    called := fun hw => by rw [place_init] at hw; cases hw
    finished := fun hr => by cases hr
    calls := fun hr => by cases hr
    nodup := List.nodup_nil
    below := fun hw => by cases hw
    one := fun hc => absurd rfl hc }
  busy := rfl
  outside := fun _ _ => trivial
  spawned := fun _ => rfl
  started := fun c hc => by cases hc
  born := fun i hi => absurd rfl hi
  workers := Nat.zero_le _
  quiet := fun _ => ⟨⟨by simp [dispenser, publishedCount, publication], fun t => by cases t <;> rfl⟩, rfl⟩
  phase := fun c hc => by cases hc

omit [DecidableEq C] in
/-- A dispatched job starts outside the pool. -/
theorem dispatch_outside (hthreads : threads ≤ maxThreads) (job : MtpJob F X) (minChunk : ℤ) :
    (dispatch threads job minChunk).Outside threads := by
  unfold dispatch
  simp only
  split
  · trivial
  · rename_i htotal
    split
    · trivial
    · rename_i hcount
      obtain ⟨_, hplan⟩ := mtpPlan_planned hthreads (not_le.mp htotal) (not_lt.mp hcount)
      exact_mod_cast hplan.n_le

/-- Every step keeps the invariant, with the same or with another caller in the pool. -/
theorem inv_step {s s' : State F X C} {holder : Option C} (h : Inv threads s holder)
    (hthreads : threads ≤ maxThreads) {a : Action F X C} (hstep : step threads s a = some s') :
    ∃ holder', Inv threads s' holder' := by
  cases a with
  | dispatch c job minChunk =>
    rw [step] at hstep
    split at hstep
    · rename_i hidle
      cases hstep
      refine ⟨holder, h.outside_step (fun hc => ?_) (dispatch_outside hthreads job minChunk)⟩
      have := h.phase c hc
      rw [hidle] at this
      exact this
    · cases hstep
  | caller c choice =>
    rw [step, map_eq_some_iff] at hstep
    obtain ⟨⟨p, pc, spawned⟩, hpc, rfl⟩ := hstep
    by_cases hc : holder = some c
    · subst hc
      exact h.stepCaller_holder hthreads hpc
    · exact h.stepCaller_outside hc hpc
  | worker i choice =>
    rw [step, map_eq_some_iff] at hstep
    obtain ⟨⟨p, pc⟩, hpc, rfl⟩ := hstep
    exact ⟨holder, h.stepWorker hthreads hpc⟩

/-- So it holds of every reachable state. -/
theorem inv_reachable {s : State F X C} (hthreads : threads ≤ maxThreads) (h : Reachable threads s) :
    ∃ holder, Inv threads s holder := by
  induction h with
  | init => exact ⟨none, inv_init threads⟩
  | step _ a hstep ih =>
    obtain ⟨holder, hinv⟩ := ih
    exact inv_step hinv hthreads hstep

omit [DecidableEq C] in
/-- A thread runs a chunk from the call to the store that counts it as completed. -/
def State.running (s : State F X C) (t : Thread C) : Option (Run F X) := (s.place t).bind Work.called

/-- How often the body was called for a chunk. -/
def Pool.callsOf (p : Pool F X) (job chunk : ℕ) : ℕ := p.calls.countP fun r => r.job = job ∧ r.chunk = chunk

omit [DecidableEq C] in
theorem Claims.callsOf_le (h : Claims threads p W) (job chunk : ℕ) : p.callsOf job chunk ≤ 1 := by
  have hcount : p.callsOf job chunk = (p.calls.map fun r => (r.job, r.chunk)).count (job, chunk) := by
    rw [Pool.callsOf, List.count_eq_countP, List.countP_map]
    refine List.countP_congr fun r _ => ?_
    simp
  rw [hcount]
  exact List.nodup_iff_count_le_one.mp h.nodup _

/-- The parallel pool, in every reachable state and so under every interleaving: a chunk is called at
most once, with the range and the context of the job it was published with; when `mtp_join` has returned
every published chunk has been called once and is completed; chunks that run at the same time have
different slots; and no thread holds a chunk when the job record is written. -/
theorem pool_runs_chunks_once (requested hardware : ℕ) {s : State F X C}
    (h : Reachable (mtpThreads requested hardware) s) :
    (∀ job chunk, s.pool.callsOf job chunk ≤ 1) ∧
      (∀ r ∈ s.pool.calls, r.Ok s.pool.published) ∧
      (∀ c, s.caller c = .release → ∀ job chunk, chunk < publishedCount s.pool.published job →
        s.pool.callsOf job chunk = 1 ∧ ∃ r ∈ s.pool.finished, r.job = job ∧ r.chunk = chunk) ∧
      (∀ t t' r r', s.running t = some r → s.running t' = some r' → r.slot = r'.slot → t = t') ∧
      ∀ c job count, s.caller c = .record job count → ∀ t, (s.place t).bind Work.claim = none := by
  have hthreads : mtpThreads requested hardware ≤ maxThreads := min_le_right _ _
  obtain ⟨holder, hinv⟩ := inv_reachable hthreads h
  have hclaims := hinv.claims
  -- a caller that is past the acquisition holds the pool
  have hholder : ∀ c, ¬ (s.caller c).Outside (mtpThreads requested hardware) → holder = some c := by
    intro c hc
    by_contra hne
    exact hc (hinv.outside c hne)
  refine ⟨hclaims.callsOf_le, fun r hr => (hclaims.calls hr).1, fun c hc job chunk hchunk => ?_,
    fun t t' r r' hr hr' hslot => ?_, fun c job count hc t => ?_⟩
  · have hphase := hinv.phase c (hholder c (by rw [hc]; exact id))
    rw [hc] at hphase
    have hquiet : Quiet s.pool s.place := hphase
    obtain ⟨e, he⟩ : ∃ e, publication s.pool.published job = some e := by
      cases hnone : publication s.pool.published job with
      | none => simp [publishedCount, hnone] at hchunk
      | some e => exact ⟨e, rfl⟩
    obtain ⟨hpos, hle⟩ := publication_le he
    have hfinished := hclaims.tickets.complete hquiet.idle hpos hle hchunk
    obtain ⟨r, hr, hkey⟩ := List.mem_map.mp hfinished
    obtain ⟨rfl, rfl⟩ := Prod.mk.inj hkey
    refine ⟨le_antisymm (hclaims.callsOf_le _ _) ?_, r, hr, rfl, rfl⟩
    exact List.countP_pos_iff.mpr ⟨r, (hclaims.finished hr).1, by simp⟩
  · unfold State.running at hr hr'
    rw [Option.bind_eq_some_iff] at hr hr'
    obtain ⟨w, hw, hcalled⟩ := hr
    obtain ⟨w', hw', hcalled'⟩ := hr'
    rw [hclaims.slots hw hcalled, hclaims.slots hw' hcalled'] at hslot
    have hclaim : (s.place t).bind Work.claim = some (r.job, r.chunk) := by
      rw [hw, Option.bind_some, Work.claim_of_called hcalled]
    have hclaim' : (s.place t').bind Work.claim = some (r'.job, r'.chunk) := by
      rw [hw', Option.bind_some, Work.claim_of_called hcalled']
    exact hclaims.slot_inj hclaim hclaim' hslot
  · have hphase := hinv.phase c (hholder c (by rw [hc]; exact id))
    rw [hc] at hphase
    exact hphase.1.idle.2 t

/-- A run leads to a reachable state. -/
theorem reachable_run {s s' : State F X C} (h : Reachable threads s) {actions : List (Action F X C)}
    (hrun : run threads s actions = some s') : Reachable threads s' := by
  induction actions generalizing s with
  | nil =>
    cases hrun
    exact h
  | cons a rest ih =>
    rw [run, bind_eq_some_iff] at hrun
    obtain ⟨s₁, hstep, hrest⟩ := hrun
    exact ih (.step h a hstep) hrest

/-- A range of two elements. -/
def pairJob : MtpJob Unit Unit := ⟨some (), none, (), 0, 2, 0⟩

/-- A dispatch of two chunks: the worker takes the first one, the caller the second. -/
def pairActions : List (Action Unit Unit Unit) :=
  .dispatch () pairJob 1 :: (List.replicate 12 (.caller () true) ++ List.replicate 7 (.worker 0 true) ++
    List.replicate 10 (.caller () true))

theorem pool_runs_chunks_once_pair : ∃ s : State Unit Unit Unit, s.caller () = .release ∧
    publishedCount s.pool.published 1 = 2 ∧ s.pool.callsOf 1 0 = 1 ∧ s.pool.callsOf 1 1 = 1 := by
  have hend : ((run (mtpThreads 2 1) {} pairActions).map fun s =>
      (s.caller (), publishedCount s.pool.published 1)) = some (.release, 2) := by decide
  obtain ⟨s, hrun, hs⟩ := Option.map_eq_some_iff.mp hend
  obtain ⟨hrelease, hcount⟩ := Prod.mk.inj hs
  obtain ⟨-, -, hjoin, -, -⟩ := pool_runs_chunks_once 2 1 (reachable_run .init hrun)
  refine ⟨s, hrelease, hcount, (hjoin () hrelease 1 0 ?_).1, (hjoin () hrelease 1 1 ?_).1⟩
  · rw [hcount]
    decide
  · rw [hcount]
    decide

end Mettle.Runtime.Parallel

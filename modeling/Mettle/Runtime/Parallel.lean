import Mathlib

/-!
# The parallel pool

`runtime/parallel.c` as a transition system. Every atomic access is one step, and so is every access to
a field of the pool that is not atomic. A step belongs to a worker or to a caller; a dispatch that a
chunk makes is a caller of its own. The arithmetic on `long long` is exact, since C leaves its overflow
undefined; `unsigned`, `uint32_t` and `uint64_t` wrap.
-/

namespace Mettle.Runtime.Parallel

/-- `METTLE_PARALLEL_MAX_THREADS`. -/
def maxThreads : ℕ := 64

/-- `MTP_SPIN_ROUNDS + MTP_YIELD_ROUNDS`. -/
def awaitRounds : ℕ := 4096 + 16384

/-- `mtp_threads`, from the count the environment asks for and that of the hardware. -/
def mtpThreads (requested hardware : ℕ) : ℕ := min (if requested < 1 then hardware else requested) maxThreads

/-- `MtpJob`, over the functions and the contexts a caller may pass. -/
structure MtpJob (F X : Type) where
  body : Option F
  slotBody : Option F
  ctx : X
  lo : ℤ
  hi : ℤ
  span : ℤ
  deriving DecidableEq

/-- A call of a body. -/
inductive Call (F X : Type) where
  | body (f : Option F) (ctx : X) (lo hi : ℤ)
  | slotBody (f : F) (ctx : X) (lo hi : ℤ) (slot : ℕ)
  deriving DecidableEq

variable {F X C : Type}

/-- `mtp_run`. -/
def mtpRun (job : MtpJob F X) (lo hi : ℤ) (slot : ℕ) : Call F X :=
  match job.slotBody with
  | some f => .slotBody f job.ctx lo hi slot
  | none => .body job.body job.ctx lo hi

/-- The call that `mtp_work` makes for a chunk. -/
def MtpJob.chunk (job : MtpJob F X) (chunk slot : ℕ) : Call F X :=
  let start := job.lo + job.span * chunk
  let stop := start + job.span
  mtpRun job start (if stop < job.hi then stop else job.hi) slot

/-- `mtp_plan`: the number of chunks and their span. -/
def mtpPlan (threads : ℕ) (total minChunk : ℤ) : ℕ × ℤ :=
  let limit : ℤ := threads * 4
  let count := min (total / (if minChunk < 1 then 1 else minChunk)) limit
  if count < 2 then (1, total)
  else
    let span := (total + count - 1) / count
    (((total + span - 1) / span).toNat % 2 ^ 32, span)

/-! ## Tickets -/

/-- `mtp_ticket_count`. -/
def ticketCount (ticket : ℕ) : ℕ := ticket % 2 ^ 32

/-- `mtp_ticket_next`. -/
def ticketNext (ticket : ℕ) : ℕ := ticket / 2 ^ 32 % 2 ^ 32

/-- `mtp_ticket_exhausted`. -/
def ticketExhausted (ticket : ℕ) : Bool := ticketCount ticket ≤ ticketNext ticket

/-- The `fetch_add` of `mtp_claim`. -/
def ticketAdd (ticket : ℕ) : ℕ := (2 ^ 32 + ticket) % 2 ^ 64

/-! ## States -/

/-- A chunk of the job that was published as number `job`, with the slot of the thread that runs it and
the call it makes. -/
structure Run (F X : Type) where
  job : ℕ
  chunk : ℕ
  slot : ℕ
  call : Call F X
  deriving DecidableEq

/-- Where `mtp_work` is. -/
inductive Work (F X : Type) where
  /-- Before the load of the ticket. -/
  | load
  /-- Before the `fetch_add`, after a load of a ticket that was not exhausted. -/
  | add
  /-- Before the job record is read for a chunk. -/
  | read (job chunk : ℕ)
  /-- In the body. -/
  | run (run : Run F X)
  /-- Before the counter of the slot is read. -/
  | count (run : Run F X)
  /-- Before the counter is stored. -/
  | store (run : Run F X) (completed : ℕ)
  deriving DecidableEq

/-- Where `mtp_wake_some` is. -/
inductive Wake where
  | load
  | exchange (budget : ℤ)
  deriving DecidableEq

/-- Where a worker is. The locals `seen` and `rounds` are those of `mtp_worker` and
`mtp_await_generation`. -/
inductive Worker (F X : Type) where
  | unborn
  | await (seen rounds : ℕ)
  | park (seen rounds : ℕ)
  | wait (seen rounds : ℕ)
  | unpark (seen rounds : ℕ)
  | wake (seen rounds : ℕ) (wake : Wake)
  | work (seen : ℕ) (work : Work F X)
  deriving DecidableEq

/-- Where a caller of `mtp_dispatch` is. -/
inductive Caller (F X : Type) where
  | idle
  | acquire (job : MtpJob F X) (count : ℕ)
  | spawnOnce (job : MtpJob F X) (count : ℕ)
  | spawnLoop (job : MtpJob F X) (count : ℕ)
  | spawned (job : MtpJob F X) (count : ℕ)
  | checkWorkers (job : MtpJob F X) (count : ℕ)
  | giveUp (job : MtpJob F X)
  | inline (call : Call F X)
  | record (job : MtpJob F X) (count : ℕ)
  | loadGeneration (count : ℕ)
  | addDispatched (count generation : ℕ)
  | storeTicket (count generation : ℕ)
  | storeGeneration (generation : ℕ)
  | loadParked
  | storeBudget (parked : ℤ)
  | wake (wake : Wake)
  | work (work : Work F X)
  | join (slot total : ℕ)
  | release
  deriving DecidableEq

/-- `g_pool` and `g_slots`, and what has happened: the jobs that were published, the last one first, the
calls that were made for chunks and the chunks that were counted as completed. -/
structure Pool (F X : Type) where
  job : Option (MtpJob F X) := none
  ticket : ℕ := 0
  generation : ℕ := 0
  parked : ℤ := 0
  wakeBudget : ℤ := 0
  busy : Bool := false
  workers : ℕ := 0
  spawned : Bool := false
  dispatched : ℕ := 0
  completed : ℕ → ℕ := fun _ => 0
  published : List (MtpJob F X × ℕ) := []
  calls : List (Run F X) := []
  finished : List (Run F X) := []

/-- The pool and its threads. -/
structure State (F X C : Type) where
  pool : Pool F X := {}
  worker : ℕ → Worker F X := fun _ => .unborn
  caller : C → Caller F X := fun _ => .idle

/-! ## Steps -/

/-- A step of `mtp_work` with a slot; `none` in place of a position when it returns. -/
def stepWork (p : Pool F X) (slot : ℕ) : Work F X → Pool F X × Option (Work F X)
  | .load => (p, if ticketExhausted p.ticket then none else some .add)
  | .add =>
    ({ p with ticket := ticketAdd p.ticket },
      if ticketExhausted p.ticket then none
      else some (.read p.published.length (ticketNext p.ticket)))
  | .read number chunk =>
    match p.job with
    | some job =>
      let run := ⟨number, chunk, slot, job.chunk chunk slot⟩
      ({ p with calls := run :: p.calls }, some (.run run))
    | none => (p, some (.read number chunk))
  | .run run => (p, some (.count run))
  | .count run => (p, some (.store run (p.completed slot)))
  | .store run completed =>
    ({ p with
        completed := Function.update p.completed slot ((completed + 1) % 2 ^ 64)
        finished := run :: p.finished }, some .load)

/-- A step of `mtp_wake_some`; the exchange is weak, so it may fail on its own. -/
def stepWake (p : Pool F X) (succeeds : Bool) : Wake → Pool F X × Option Wake
  | .load => (p, if 0 < p.wakeBudget then some (.exchange p.wakeBudget) else none)
  | .exchange budget =>
    if succeeds ∧ p.wakeBudget = budget then
      ({ p with wakeBudget := budget - (if 2 < budget then 2 else budget) }, none)
    else (p, if 0 < p.wakeBudget then some (.exchange p.wakeBudget) else none)

/-- Where a worker goes on after a step of `mtp_wake_some`. -/
def Worker.afterWake (seen rounds : ℕ) : Option Wake → Worker F X
  | some w => .wake seen rounds w
  | none => .await seen rounds

/-- Where a worker goes on after a step of `mtp_work`. -/
def Worker.afterWork (seen : ℕ) : Option (Work F X) → Worker F X
  | some w => .work seen w
  | none => .await seen 0

/-- A step of `mtp_worker`; a worker that waits may wake at any time. -/
def stepWorker (p : Pool F X) (index : ℕ) (choice : Bool) : Worker F X → Option (Pool F X × Worker F X)
  | .unborn => none
  | .await seen rounds =>
    some (p, if p.generation = seen then
        (if rounds < awaitRounds then .await seen (rounds + 1) else .park seen rounds)
      else .work p.generation .load)
  | .park seen rounds => some ({ p with parked := p.parked + 1 }, .wait seen rounds)
  | .wait seen rounds => some (p, .unpark seen rounds)
  | .unpark seen rounds => some ({ p with parked := p.parked - 1 }, .wake seen rounds .load)
  | .wake seen rounds wake =>
    some ((stepWake p choice wake).1, .afterWake seen rounds (stepWake p choice wake).2)
  | .work seen work =>
    some ((stepWork p index work).1, .afterWork seen (stepWork p index work).2)

/-- Where a caller goes on after a step of `mtp_wake_some`. -/
def Caller.afterWake : Option Wake → Caller F X
  | some w => .wake w
  | none => .work .load

/-- Where a caller goes on after a step of `mtp_work`. -/
def Caller.afterWork : Option (Work F X) → Caller F X
  | some w => .work w
  | none => .join 0 0

/-- A step of a caller after the start of `mtp_dispatch`; the choice is whether a thread can be
spawned. The spawned worker comes with the step. -/
def stepCaller (threads : ℕ) (p : Pool F X) (choice : Bool) :
    Caller F X → Option (Pool F X × Caller F X × Option ℕ)
  | .idle => none
  | .acquire job count =>
    if p.busy then some (p, .inline (mtpRun job job.lo job.hi 0), none)
    else some ({ p with busy := true }, .spawnOnce job count, none)
  | .spawnOnce job count =>
    if p.spawned then some (p, .checkWorkers job count, none)
    else some ({ p with spawned := true }, .spawnLoop job count, none)
  | .spawnLoop job count =>
    if p.workers + 1 < threads ∧ choice then some (p, .spawned job count, some p.workers)
    else some (p, .checkWorkers job count, none)
  | .spawned job count => some ({ p with workers := p.workers + 1 }, .spawnLoop job count, none)
  | .checkWorkers job count => some (p, if p.workers = 0 then .giveUp job else .record job count, none)
  | .giveUp job => some ({ p with busy := false }, .inline (mtpRun job job.lo job.hi 0), none)
  | .inline _ => some (p, .idle, none)
  | .record job count => some ({ p with job := some job }, .loadGeneration count, none)
  | .loadGeneration count => some (p, .addDispatched count ((p.generation + 1) % 2 ^ 32), none)
  | .addDispatched count generation =>
    some ({ p with dispatched := (p.dispatched + count) % 2 ^ 64 }, .storeTicket count generation, none)
  | .storeTicket count generation =>
    some ({ p with
      ticket := count
      published := (p.job.map fun job => (job, count)).toList ++ p.published },
      .storeGeneration generation, none)
  | .storeGeneration generation => some ({ p with generation }, .loadParked, none)
  | .loadParked => some (p, if 0 < p.parked then .storeBudget p.parked else .work .load, none)
  | .storeBudget parked => some ({ p with wakeBudget := parked }, .wake .load, none)
  | .wake wake =>
    some ((stepWake p choice wake).1, .afterWake (stepWake p choice wake).2, none)
  | .work work =>
    some ((stepWork p p.workers work).1, .afterWork (stepWork p p.workers work).2, none)
  | .join slot total =>
    some (p,
      if slot ≤ p.workers then .join (slot + 1) ((total + p.completed slot) % 2 ^ 64)
      else if total = p.dispatched then .release
      else .join 0 0, none)
  | .release => some ({ p with busy := false }, .idle, none)

/-- The start of `mtp_dispatch`, up to the acquisition of the pool. -/
def dispatch (threads : ℕ) (job : MtpJob F X) (minChunk : ℤ) : Caller F X :=
  let total := job.hi - job.lo
  if total ≤ 0 then .idle
  else
    let (count, span) := mtpPlan threads total minChunk
    let job := { job with span }
    if count < 2 then .inline (mtpRun job job.lo job.hi 0) else .acquire job count

/-- A step of the system. -/
inductive Action (F X C : Type) where
  | dispatch (caller : C) (job : MtpJob F X) (minChunk : ℤ)
  | caller (caller : C) (choice : Bool)
  | worker (index : ℕ) (choice : Bool)

/-- The workers after a thread was started. -/
def spawn (worker : ℕ → Worker F X) : Option ℕ → ℕ → Worker F X
  | some i => Function.update worker i (.await 0 0)
  | none => worker

/-- `none` for an action that is not possible. -/
def step [DecidableEq C] (threads : ℕ) (s : State F X C) : Action F X C → Option (State F X C)
  | .dispatch c job minChunk =>
    match s.caller c with
    | .idle => some { s with caller := Function.update s.caller c (dispatch threads job minChunk) }
    | _ => none
  | .caller c choice =>
    (stepCaller threads s.pool choice (s.caller c)).map fun (pool, pc, spawned) =>
      { pool
        caller := Function.update s.caller c pc
        worker := spawn s.worker spawned }
  | .worker i choice =>
    (stepWorker s.pool i choice (s.worker i)).map fun (pool, pc) =>
      { s with pool, worker := Function.update s.worker i pc }

/-- Act after act. -/
def run [DecidableEq C] (threads : ℕ) (s : State F X C) : List (Action F X C) → Option (State F X C)
  | [] => some s
  | a :: rest => (step threads s a).bind fun s => run threads s rest

/-- The states that a sequence of actions leads to. -/
inductive Reachable [DecidableEq C] (threads : ℕ) : State F X C → Prop
  | init : Reachable threads {}
  | step {s s' : State F X C} (h : Reachable threads s) (a : Action F X C)
      (hstep : step threads s a = some s') : Reachable threads s'

end Mettle.Runtime.Parallel

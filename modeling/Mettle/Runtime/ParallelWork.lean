import Mettle.Lib.Tickets
import Mettle.Runtime.Parallel

/-!
# Claiming and running chunks

`mtp_work` is the same code for workers and callers. The pool and the places of the threads in it are a
dispenser of tickets (`Lib.Tickets`), and every step of `mtp_work` is a step of the dispenser or none
(`Claims.work`).
-/

open List Option Function

namespace Mettle.Runtime.Parallel

open Lib

variable {F X C : Type} {p : Pool F X}

/-- A worker or a caller. -/
abbrev Thread (C : Type) := ℕ ⊕ C

/-- The slot of a thread. -/
def slotOf (workers : ℕ) : Thread C → ℕ
  | .inl i => i
  | .inr _ => workers

namespace Work

/-- The chunk a thread has claimed and not yet counted as completed. -/
def claim : Work F X → Option (ℕ × ℕ)
  | .load | .add => none
  | .read job chunk => some (job, chunk)
  | .run r | .count r | .store r _ => some (r.job, r.chunk)

/-- The call a thread has made for a chunk that is not yet counted as completed. -/
def called : Work F X → Option (Run F X)
  | .load | .add | .read _ _ => none
  | .run r | .count r | .store r _ => some r

/-- Between the load of the ticket and the `fetch_add`. -/
def isAdd : Work F X → Bool
  | .add => true
  | _ => false

/-- A call is of the claimed chunk. -/
theorem claim_of_called {w : Work F X} {r : Run F X} (h : w.called = some r) :
    w.claim = some (r.job, r.chunk) := by
  cases w <;> simp_all [called, claim]

end Work

/-! ## Published jobs -/

/-- The job that was published as a number, with its count. -/
def publication : List (MtpJob F X × ℕ) → ℕ → Option (MtpJob F X × ℕ)
  | [], _ => none
  | e :: rest, j => if j = rest.length + 1 then some e else publication rest j

/-- The count of the job that was published as a number. -/
def publishedCount (l : List (MtpJob F X × ℕ)) (j : ℕ) : ℕ := ((publication l j).map Prod.snd).getD 0

variable {l : List (MtpJob F X × ℕ)} {j : ℕ} {e : MtpJob F X × ℕ}

theorem publication_le (h : publication l j = some e) : 1 ≤ j ∧ j ≤ l.length := by
  induction l with
  | nil => cases h
  | cons e' rest ih =>
    rw [publication] at h
    rw [length_cons]
    split at h
    · omega
    · have := ih h
      omega

/-- One publication more keeps the others. -/
theorem publication_cons (h : publication l j = some e) (e' : MtpJob F X × ℕ) : publication (e' :: l) j = some e := by
  have := publication_le h
  rw [publication, if_neg (by omega), h]

/-- How many chunks the new one has. -/
theorem publishedCount_cons (l : List (MtpJob F X × ℕ)) (e : MtpJob F X × ℕ) :
    publishedCount (e :: l) = update (publishedCount l) (l.length + 1) e.2 := by
  funext j
  simp only [publishedCount, publication, update_apply]
  split <;> rfl

/-- A run that makes the call of a chunk of the job it belongs to. -/
def Run.Ok (l : List (MtpJob F X × ℕ)) (r : Run F X) : Prop :=
  ∃ job n, publication l r.job = some (job, n) ∧ r.chunk < n ∧ r.call = job.chunk r.chunk r.slot

/-! ## The dispenser -/

/-- The pool and the places of the threads in `mtp_work` as a dispenser of tickets. -/
def dispenser (p : Pool F X) (W : Thread C → Option (Work F X)) : Tickets (Thread C) where
  jobs := p.published.length
  count := publishedCount p.published
  next := ticketNext p.ticket
  held := fun t => (W t).bind Work.claim
  finished := p.finished.map fun r => (r.job, r.chunk)

/-- What the steps of `mtp_work` keep. -/
structure Claims (threads : ℕ) (p : Pool F X) (W : Thread C → Option (Work F X)) : Prop where
  tickets : (dispenser p W).Inv
  count : ticketCount p.ticket = publishedCount p.published p.published.length
  small : ticketCount p.ticket ≤ 4 * threads
  misses : ticketCount p.ticket ≤ ticketNext p.ticket →
    ticketNext p.ticket + {t | (W t).any Work.isAdd = true}.ncard ≤ ticketCount p.ticket + threads + 1
  completed : ∀ i, p.completed i = (p.finished.countP fun r => r.slot = i) % 2 ^ 64
  stored : ∀ {t r v}, W t = some (.store r v) → v = p.completed (slotOf p.workers t)
  slots : ∀ {t w r}, W t = some w → w.called = some r → r.slot = slotOf p.workers t
  called : ∀ {t w r}, W t = some w → w.called = some r → r ∈ p.calls
  finished : ∀ {r}, r ∈ p.finished → r ∈ p.calls ∧ r.slot ≤ p.workers
  calls : ∀ {r}, r ∈ p.calls → r.Ok p.published ∧
    (r ∈ p.finished ∨ ∃ t w, W t = some w ∧ w.called = some r)
  nodup : (p.calls.map fun r => (r.job, r.chunk)).Nodup
  below : ∀ {i w k}, W (.inl i) = some w → w.claim = some k → i < p.workers
  one : ∀ {c c'}, W (.inr c) ≠ none → W (.inr c') ≠ none → c = c'

/-- The threads that can be in `mtp_work`. -/
structure Crew (threads : ℕ) (p : Pool F X) (W : Thread C → Option (Work F X)) : Prop where
  finite : {t | W t ≠ none}.Finite
  card : {t | W t ≠ none}.ncard ≤ threads + 1
  born : ∀ i, W (.inl i) ≠ none → p.published ≠ [] → i < p.workers
  record : ∀ t k, (W t).bind Work.claim = some k → p.published.head?.map Prod.fst = p.job

/-- No more threads are at work than the pool has, and the caller. -/
theorem Crew.ncard_le {threads : ℕ} {W : Thread C → Option (Work F X)} (h : Crew threads p W) :
    {t | (W t).any Work.isAdd = true}.ncard ≤ threads + 1 := by
  refine (Set.ncard_le_ncard (fun t ht hnone => ?_) h.finite).trans h.card
  simp [hnone] at ht

namespace Claims

variable {threads : ℕ} {W : Thread C → Option (Work F X)} (h : Claims threads p W)

include h

variable {t : Thread C} {o : Option (Work F X)}

/-- Threads that hold chunks have different slots. -/
theorem slot_inj {t' : Thread C} {k k' : ℕ × ℕ} (ht : (W t).bind Work.claim = some k)
    (ht' : (W t').bind Work.claim = some k') (hslot : slotOf p.workers t = slotOf p.workers t') : t = t' := by
  rw [bind_eq_some_iff] at ht ht'
  obtain ⟨w, hw, hk⟩ := ht
  obtain ⟨w', hw', hk'⟩ := ht'
  cases t with
  | inl i =>
    cases t' with
    | inl i' => exact congrArg Sum.inl hslot
    | inr c' =>
      have := h.below hw hk
      simp only [slotOf] at hslot
      omega
  | inr c =>
    cases t' with
    | inl i' =>
      have := h.below hw' hk'
      simp only [slotOf] at hslot
      omega
    | inr c' =>
      have hc : c = c' := h.one (by rw [hw]; simp) (by rw [hw']; simp)
      rw [hc]

/-- A pool that differs in what the steps of `mtp_work` do not use. -/
theorem congr {p' : Pool F X} (hticket : p'.ticket = p.ticket) (hpublished : p'.published = p.published)
    (hcompleted : p'.completed = p.completed) (hfinished : p'.finished = p.finished)
    (hcalls : p'.calls = p.calls) (hworkers : p'.workers = p.workers) : Claims threads p' W := by
  obtain ⟨job, ticket, generation, parked, wakeBudget, busy, workers, spawned, dispatched, completed,
    published, calls, finished⟩ := p
  subst hticket hpublished hcompleted hfinished hcalls hworkers
  exact ⟨h.tickets, h.count, h.small, h.misses, h.completed, h.stored, h.slots, h.called, h.finished,
    h.calls, h.nodup, h.below, h.one⟩

variable [DecidableEq C]

omit h in
/-- Whose work it is after one thread's work changed. -/
theorem update_eq {t t' : Thread C} {o : Option (Work F X)} {w : Work F X}
    (hw : Function.update W t o t' = some w) : (t' = t ∧ o = some w) ∨ (t' ≠ t ∧ W t' = some w) := by
  by_cases ht : t' = t
  · subst ht
    rw [Function.update_self] at hw
    exact Or.inl ⟨rfl, hw⟩
  · rw [Function.update_of_ne ht] at hw
    exact Or.inr ⟨ht, hw⟩

omit h in
/-- A thread that has work keeps some when another's changes. -/
theorem update_ne_none {t t' : Thread C} {o : Option (Work F X)} {w : Work F X} (ht : W t = some w)
    (hne : Function.update W t o t' ≠ none) : W t' ≠ none := by
  by_cases htt : t' = t
  · rw [htt, ht]
    simp
  · rwa [Function.update_of_ne htt] at hne

omit h in
/-- The threads between a load and a `fetch_add`, when one thread moves elsewhere. -/
theorem ncard_update_le (hfinite : {t | W t ≠ none}.Finite) (ho : o.any Work.isAdd = false) :
    {t' | (update W t o t').any Work.isAdd = true}.ncard +
        (if (W t).any Work.isAdd = true then 1 else 0) ≤ {t' | (W t').any Work.isAdd = true}.ncard := by
  have hsub : {t' | (W t').any Work.isAdd = true} ⊆ {t' | W t' ≠ none} := by
    intro t' ht' hnone
    simp [hnone] at ht'
  have hset : {t' | (update W t o t').any Work.isAdd = true} =
      {t' | (W t').any Work.isAdd = true} \ {t} := by
    ext t'
    by_cases ht : t' = t
    · subst ht
      simp [ho]
    · simp [ht]
  rw [hset]
  split
  · rename_i hadd
    exact (Set.ncard_sdiff_singleton_add_one (s := {t' | (W t').any Work.isAdd = true}) hadd
      (hfinite.subset hsub)).le
  · rw [Nat.add_zero]
    exact Set.ncard_le_ncard Set.sdiff_subset (hfinite.subset hsub)

/-- A thread moves within `mtp_work`, or into it or out of it, without claiming or completing. -/
theorem move (hfinite : {t | W t ≠ none}.Finite) (hclaim : o.bind Work.claim = (W t).bind Work.claim)
    (hcalled : o.bind Work.called = (W t).bind Work.called)
    (hadd : o.any Work.isAdd = true → ticketNext p.ticket < ticketCount p.ticket)
    (hstored : ∀ r v, o = some (.store r v) → v = p.completed (slotOf p.workers t))
    (hone : ∀ c c', t = .inr c → o ≠ none → W (.inr c') ≠ none → c' = c) : Claims threads p (update W t o) := by
  -- the thread keeps the ticket it holds, so the dispenser does not see the step
  have hheld : (fun t' => (update W t o t').bind Work.claim) = fun t' => (W t').bind Work.claim := by
    funext t'
    by_cases ht : t' = t
    · subst ht
      rw [update_self, hclaim]
    · rw [update_of_ne ht]
  have hdispenser : dispenser p (update W t o) = dispenser p W := by
    unfold dispenser
    rw [hheld]
  have hback : ∀ {t' w r}, update W t o t' = some w → w.called = some r →
      ∃ w', W t' = some w' ∧ w'.called = some r := by
    intro t' w r hw hr
    rcases update_eq hw with ⟨rfl, ho⟩ | ⟨-, hold⟩
    · rw [ho, bind_some, hr, eq_comm, bind_eq_some_iff] at hcalled
      exact hcalled
    · exact ⟨w, hold, hr⟩
  refine {
    tickets := by rw [hdispenser]; exact h.tickets
    count := h.count
    small := h.small
    misses := fun hle => ?_
    completed := h.completed
    stored := fun hw => ?_
    slots := fun hw hr => ?_
    called := fun hw hr => ?_
    finished := h.finished
    calls := fun hr => ?_
    nodup := h.nodup
    below := fun hw hk => ?_
    one := fun hc hc' => ?_ }
  -- a thread that is not adding a miss leaves the bound as it was
  · have hno : o.any Work.isAdd = false := by
      by_contra hyes
      have := hadd (by simpa using hyes)
      omega
    have := ncard_update_le hfinite (t := t) hno
    have := h.misses hle
    omega
  · rcases update_eq hw with ⟨rfl, ho⟩ | ⟨-, hold⟩
    · exact hstored _ _ ho
    · exact h.stored hold
  · obtain ⟨w', hw', hr'⟩ := hback hw hr
    exact h.slots hw' hr'
  · obtain ⟨w', hw', hr'⟩ := hback hw hr
    exact h.called hw' hr'
  · obtain ⟨hok, hfin | ⟨t', w, hw, hrun⟩⟩ := h.calls hr
    · exact ⟨hok, Or.inl hfin⟩
    · refine ⟨hok, Or.inr ?_⟩
      by_cases ht : t' = t
      · subst ht
        rw [hw, bind_some, hrun, bind_eq_some_iff] at hcalled
        obtain ⟨w', ho, hrun'⟩ := hcalled
        exact ⟨t', w', by rw [update_self, ho], hrun'⟩
      · exact ⟨t', w, by rw [update_of_ne ht, hw], hrun⟩
  · rcases update_eq hw with ⟨rfl, ho⟩ | ⟨-, hold⟩
    · rw [ho, bind_some, hk, eq_comm, bind_eq_some_iff] at hclaim
      obtain ⟨w', hw', hk'⟩ := hclaim
      exact h.below hw' hk'
    · exact h.below hold hk
  · rename_i c c'
    by_cases htc : t = .inr c
    · by_cases htc' : t = .inr c'
      · exact Sum.inr.inj (htc.symm.trans htc')
      · rw [htc, update_self] at hc
        rw [update_of_ne (Ne.symm htc')] at hc'
        exact (hone c c' htc hc hc').symm
    · rw [update_of_ne (Ne.symm htc)] at hc
      by_cases htc' : t = .inr c'
      · rw [htc', update_self] at hc'
        exact hone c' c htc' hc' hc
      · rw [update_of_ne (Ne.symm htc')] at hc'
        exact h.one hc hc'

end Claims

/-! ## Steps of `mtp_work` -/

/-- The dispenser after the ticket has moved. -/
theorem dispenser_ticket (p : Pool F X) (W : Thread C → Option (Work F X)) (ticket : ℕ) :
    dispenser { p with ticket } W = { dispenser p W with next := ticketNext ticket } := rfl

/-- The dispenser after the work of one thread has changed. -/
theorem dispenser_update [DecidableEq C] (p : Pool F X) (W : Thread C → Option (Work F X)) (t : Thread C)
    (o : Option (Work F X)) : dispenser p (update W t o) =
      { dispenser p W with held := update (dispenser p W).held t (o.bind Work.claim) } := by
  unfold dispenser
  congr 1
  funext t'
  by_cases ht : t' = t
  · subst ht
    rw [update_self, update_self]
  · rw [update_of_ne ht, update_of_ne ht]

theorem ticketCount_add (ticket : ℕ) : ticketCount (ticketAdd ticket) = ticketCount ticket := by
  unfold ticketCount ticketAdd
  omega

/-- Drawing a ticket moves to the next one. -/
theorem ticketNext_add {ticket : ℕ} (h : ticketNext ticket + 1 < 2 ^ 32) :
    ticketNext (ticketAdd ticket) = ticketNext ticket + 1 := by
  unfold ticketNext at h ⊢
  unfold ticketAdd
  omega

namespace Claims

variable {threads : ℕ} {W : Thread C → Option (Work F X)} (h : Claims threads p W)
  (hcrew : Crew threads p W) (hthreads : threads ≤ maxThreads)

include h hcrew hthreads

variable {t : Thread C} {r : Run F X}

/-- The index in the ticket does not overflow. -/
theorem next_lt (ht : W t = some .add) : ticketNext p.ticket + 1 < 2 ^ 32 := by
  have hsmall := h.small
  unfold maxThreads at hthreads
  by_cases hle : ticketCount p.ticket ≤ ticketNext p.ticket
  · have hmisses := h.misses hle
    have hpos : 0 < {t | (W t).any Work.isAdd = true}.ncard := by
      refine (Set.ncard_pos (hcrew.finite.subset ?_)).mpr ⟨t, by simp [ht, Work.isAdd]⟩
      intro t' ht' hnone
      simp [hnone] at ht'
    omega
  · omega

variable [DecidableEq C]

/-- A `fetch_add` on an exhausted ticket. -/
theorem miss (ht : W t = some .add) (hle : ticketCount p.ticket ≤ ticketNext p.ticket) :
    Claims threads { p with ticket := ticketAdd p.ticket } (update W t none) := by
  have hmove := h.move hcrew.finite (t := t) (o := none) (by rw [ht]; rfl) (by rw [ht]; rfl)
    (fun hadd => by cases hadd) (fun r v ho => by cases ho) (fun c c' _ hne => absurd rfl hne)
  have hnext := ticketNext_add (h.next_lt hcrew hthreads ht)
  have hcount := ticketCount_add p.ticket
  refine {
    tickets := ?_
    count := by rw [hcount]; exact h.count
    small := by rw [hcount]; exact h.small
    misses := fun _ => ?_
    completed := hmove.completed
    stored := hmove.stored
    slots := hmove.slots
    called := hmove.called
    finished := hmove.finished
    calls := hmove.calls
    nodup := hmove.nodup
    below := hmove.below
    one := hmove.one }
  · rw [dispenser_ticket, hnext]
    refine hmove.tickets.step (.miss ?_)
    rw [h.count] at hle
    exact hle
  · have hncard := Claims.ncard_update_le hcrew.finite (t := t) (o := none) rfl
    simp only [ht, any_some, Work.isAdd, if_true] at hncard
    have := h.misses hle
    rw [hcount, hnext]
    omega

/-- A `fetch_add` that claims a chunk. -/
theorem draw (ht : W t = some .add) (hlt : ticketNext p.ticket < ticketCount p.ticket) :
    Claims threads { p with ticket := ticketAdd p.ticket }
      (update W t (some (.read p.published.length (ticketNext p.ticket)))) := by
  have hnext := ticketNext_add (h.next_lt hcrew hthreads ht)
  have hcount := ticketCount_add p.ticket
  have hjobs : p.published ≠ [] := by
    intro hnil
    rw [h.count, hnil] at hlt
    exact absurd hlt (by simp [publishedCount, publication])
  -- the thread has called nothing yet, so calls stay with the other threads
  have hback : ∀ {t' w r}, update W t (some (.read p.published.length (ticketNext p.ticket))) t' =
      some w → w.called = some r → t' ≠ t ∧ W t' = some w := by
    intro t' w r hw hr
    rcases update_eq hw with ⟨-, ho⟩ | hold
    · cases ho
      cases hr
    · exact hold
  refine {
    tickets := ?_
    count := by rw [hcount]; exact h.count
    small := by rw [hcount]; exact h.small
    misses := fun hle => ?_
    completed := h.completed
    stored := fun hw => ?_
    slots := fun hw hr => h.slots (hback hw hr).2 hr
    called := fun hw hr => h.called (hback hw hr).2 hr
    finished := h.finished
    calls := fun hr => ?_
    nodup := h.nodup
    below := fun hw hk => ?_
    one := fun hc hc' => ?_ }
  · rw [dispenser_ticket, dispenser_update, hnext]
    refine h.tickets.step (.draw t ?_ ?_)
    · simp only [dispenser, ht, bind_some, Work.claim]
    · rw [h.count] at hlt
      exact hlt
  · have hncard := Claims.ncard_update_le hcrew.finite (t := t)
      (o := some (.read p.published.length (ticketNext p.ticket))) rfl
    have := hcrew.ncard_le
    rw [hcount, hnext] at hle ⊢
    omega
  · rcases update_eq hw with ⟨-, ho⟩ | ⟨-, hold⟩
    · cases ho
    · have hv := h.stored hold
      simpa only using hv
  · obtain ⟨hok, hfin | ⟨t', w, hw, hrun⟩⟩ := h.calls hr
    · exact ⟨hok, Or.inl hfin⟩
    · refine ⟨hok, Or.inr ⟨t', w, ?_, hrun⟩⟩
      have hne : t' ≠ t := by
        rintro rfl
        rw [ht] at hw
        cases hw
        cases hrun
      rw [update_of_ne hne, hw]
  · rcases update_eq hw with ⟨rfl, -⟩ | ⟨-, hold⟩
    · exact hcrew.born _ (by rw [ht]; simp) hjobs
    · exact h.below hold hk
  · exact h.one (update_ne_none ht hc) (update_ne_none ht hc')

omit hthreads in
/-- The call for a claimed chunk. -/
theorem call {number chunk : ℕ} {job : MtpJob F X} (ht : W t = some (.read number chunk)) (hjob : p.job = some job)
    (hr : r = ⟨number, chunk, slotOf p.workers t, job.chunk chunk (slotOf p.workers t)⟩) :
    Claims threads { p with calls := r :: p.calls } (update W t (some (.run r))) := by
  have hkey : (r.job, r.chunk) = (number, chunk) := by rw [hr]
  have hheld : (dispenser p W).held t = some (number, chunk) := by
    simp only [dispenser, ht, bind_some, Work.claim]
  -- the ticket was taken from the job that is still published
  have hok : r.Ok p.published := by
    obtain ⟨hpos, hnumber, -, hlt⟩ := h.tickets.current hheld
    have hrecord := hcrew.record t _ hheld
    cases hlist : p.published with
    | nil => simp [dispenser, hlist] at hpos
    | cons e rest =>
      rw [hlist, hjob] at hrecord
      simp only [head?_cons, map_some, some.injEq] at hrecord
      simp only [dispenser, hlist, length_cons] at hnumber hlt
      rw [hr]
      refine ⟨job, e.2, ?_, ?_, rfl⟩
      · rw [publication, if_pos hnumber, ← hrecord]
      · simpa [publishedCount, publication] using hlt
  -- nobody has called this chunk: a finished call or a running one would hold the same ticket
  have hfresh : ∀ r' ∈ p.calls, (r'.job, r'.chunk) ≠ (number, chunk) := by
    intro r' hr' heq
    rcases (h.calls hr').2 with hfin | ⟨t', w, hw, hcalled⟩
    · exact h.tickets.fresh hheld (List.mem_map.mpr ⟨r', hfin, heq⟩)
    · have hheld' : (dispenser p W).held t' = some (number, chunk) := by
        simp only [dispenser, hw, bind_some, Work.claim_of_called hcalled, heq]
      obtain rfl := h.tickets.apart hheld' hheld
      rw [ht] at hw
      cases hw
      cases hcalled
  refine {
    tickets := ?_
    count := h.count
    small := h.small
    misses := fun hle => ?_
    completed := h.completed
    stored := fun hw => ?_
    slots := fun hw hcalled => ?_
    called := fun hw hcalled => ?_
    finished := fun hfin => ⟨mem_cons_of_mem _ (h.finished hfin).1, (h.finished hfin).2⟩
    calls := fun hmem => ?_
    nodup := ?_
    below := fun hw hk => ?_
    one := fun hc hc' => ?_ }
  · have hsame : dispenser { p with calls := r :: p.calls } (update W t (some (.run r))) =
        dispenser p W := by
      rw [dispenser_update, bind_some, Work.claim, hkey, ← hheld]
      exact congrArg (fun held => ({ dispenser p W with held := held } : Tickets (Thread C)))
        (update_eq_self t (dispenser p W).held)
    rw [hsame]
    exact h.tickets
  · have := Claims.ncard_update_le hcrew.finite (t := t) (o := some (.run r)) rfl
    have := h.misses hle
    exact Nat.le_trans (Nat.add_le_add_left (by omega) _) this
  · rcases update_eq hw with ⟨-, ho⟩ | ⟨-, hold⟩
    · cases ho
    · exact h.stored hold
  · rcases update_eq hw with ⟨rfl, ho⟩ | ⟨-, hold⟩
    · cases ho
      cases hcalled
      rw [hr]
    · exact h.slots hold hcalled
  · rcases update_eq hw with ⟨rfl, ho⟩ | ⟨-, hold⟩
    · cases ho
      cases hcalled
      exact .head _
    · exact .tail _ (h.called hold hcalled)
  · rename_i r'
    rcases mem_cons.mp hmem with rfl | hold
    · exact ⟨hok, Or.inr ⟨t, .run r', update_self .., rfl⟩⟩
    · obtain ⟨hok', hfin | ⟨t', w, hw, hcalled⟩⟩ := h.calls hold
      · exact ⟨hok', Or.inl hfin⟩
      · refine ⟨hok', Or.inr ⟨t', w, ?_, hcalled⟩⟩
        have hne : t' ≠ t := by
          rintro rfl
          rw [ht] at hw
          cases hw
          cases hcalled
        rw [update_of_ne hne, hw]
  · rw [map_cons, nodup_cons]
    refine ⟨fun hmem => ?_, h.nodup⟩
    obtain ⟨r', hr', heq⟩ := List.mem_map.mp hmem
    exact hfresh r' hr' (heq.trans hkey)
  · rcases update_eq hw with ⟨rfl, -⟩ | ⟨-, hold⟩
    · exact h.below ht rfl
    · exact h.below hold hk
  · exact h.one (update_ne_none ht hc) (update_ne_none ht hc')

omit hthreads in
/-- The store that counts a chunk as completed. -/
theorem finish {v : ℕ} (ht : W t = some (.store r v)) :
    Claims threads { p with
        completed := update p.completed (slotOf p.workers t) ((v + 1) % 2 ^ 64)
        finished := r :: p.finished } (update W t (some .load)) := by
  have hheld : (dispenser p W).held t = some (r.job, r.chunk) := by
    simp only [dispenser, ht, bind_some, Work.claim]
  have hslot : r.slot = slotOf p.workers t := h.slots ht rfl
  -- any other thread that holds something held it before the step
  have hback : ∀ {t' w}, update W t (some .load) t' = some w → (∃ k, w.claim = some k) →
      t' ≠ t ∧ W t' = some w := by
    rintro t' w hw ⟨k, hk⟩
    rcases update_eq hw with ⟨-, ho⟩ | hold
    · cases ho
      cases hk
    · exact hold
  refine {
    tickets := ?_
    count := h.count
    small := h.small
    misses := fun hle => ?_
    completed := fun i => ?_
    stored := fun hw => ?_
    slots := fun hw hcalled => h.slots (hback hw ⟨_, Work.claim_of_called hcalled⟩).2 hcalled
    called := fun hw hcalled => h.called (hback hw ⟨_, Work.claim_of_called hcalled⟩).2 hcalled
    finished := fun hfin => ?_
    calls := fun hmem => ?_
    nodup := h.nodup
    below := fun hw hk => h.below (hback hw ⟨_, hk⟩).2 hk
    one := fun hc hc' => h.one (update_ne_none ht hc) (update_ne_none ht hc') }
  · have := h.tickets.step (.finish t hheld)
    rw [dispenser_update]
    exact this
  · have := Claims.ncard_update_le hcrew.finite (t := t) (o := some .load) rfl
    have := h.misses hle
    exact Nat.le_trans (Nat.add_le_add_left (by omega) _) this
  -- the counter of this slot grows by the one call that finished, the others stand
  · have hcount := h.completed i
    simp only [countP_cons, update_apply, decide_eq_true_eq]
    by_cases hi : i = slotOf p.workers t
    · rw [if_pos hi, if_pos (hslot.trans hi.symm), h.stored ht, ← hi, hcount]
      omega
    · rw [if_neg hi, if_neg (fun heq => hi (heq.symm.trans hslot)), hcount, Nat.add_zero]
  · -- the counter of another slot
    obtain ⟨hne, hold⟩ := hback hw ⟨_, rfl⟩
    rename_i t' r' v'
    have hheld' : (W t').bind Work.claim = some (r'.job, r'.chunk) := by
      rw [hold]
      rfl
    have hslots : slotOf p.workers t' ≠ slotOf p.workers t := fun heq =>
      hne (h.slot_inj hheld' hheld heq)
    simp only [update_of_ne hslots]
    exact h.stored hold
  · rename_i r'
    rcases mem_cons.mp hfin with rfl | hold
    · refine ⟨h.called ht rfl, ?_⟩
      cases t with
      | inl i =>
        rw [hslot]
        exact (h.below ht rfl).le
      | inr c =>
        rw [hslot]
        exact le_refl _
    · exact h.finished hold
  · obtain ⟨hok, hfin | ⟨t', w, hw, hcalled⟩⟩ := h.calls hmem
    · exact ⟨hok, Or.inl (.tail _ hfin)⟩
    · by_cases hne : t' = t
      · subst hne
        rw [ht] at hw
        cases hw
        cases hcalled
        exact ⟨hok, Or.inl mem_cons_self⟩
      · exact ⟨hok, Or.inr ⟨t', w, by rw [update_of_ne hne, hw], hcalled⟩⟩

/-- A step of `mtp_work`. -/
theorem work {w : Work F X} (ht : W t = some w) :
    Claims threads (stepWork p (slotOf p.workers t) w).1
      (update W t (stepWork p (slotOf p.workers t) w).2) := by
  -- most steps of a thread change only where the thread stands
  have hstay : ∀ o : Option (Work F X), o.bind Work.claim = w.claim → o.bind Work.called = w.called →
      (o.any Work.isAdd = true → ticketNext p.ticket < ticketCount p.ticket) →
      (∀ r v, o = some (.store r v) → v = p.completed (slotOf p.workers t)) →
      Claims threads p (update W t o) := by
    intro o hclaim hcalled hadd hstored
    refine h.move hcrew.finite (by rw [ht]; exact hclaim) (by rw [ht]; exact hcalled) hadd hstored ?_
    rintro c c' rfl - hc'
    exact h.one hc' (by rw [ht]; simp)
  cases w with
  | load =>
    rw [stepWork]
    split
    · exact hstay none rfl rfl (fun hadd => by cases hadd) (fun r v ho => by cases ho)
    · rename_i hexhausted
      refine hstay (some .add) rfl rfl (fun _ => ?_) (fun r v ho => by cases ho)
      simpa [ticketExhausted] using hexhausted
  | add =>
    rw [stepWork]
    split
    · rename_i hexhausted
      exact h.miss hcrew hthreads ht (by simpa [ticketExhausted] using hexhausted)
    · rename_i hexhausted
      exact h.draw hcrew hthreads ht (by simpa [ticketExhausted] using hexhausted)
  | read number chunk =>
    rw [stepWork]
    split
    · rename_i job hjob
      exact h.call hcrew ht hjob rfl
    · exact hstay (some (.read number chunk)) rfl rfl (fun hadd => by cases hadd) (fun r v ho => by cases ho)
  | run r => exact hstay (some (.count r)) rfl rfl (fun hadd => by cases hadd) (fun r v ho => by cases ho)
  | count r =>
    refine hstay (some (.store r _)) rfl rfl (fun hadd => by cases hadd) (fun r' v ho => ?_)
    cases ho
    rfl
  | store r v => exact h.finish hcrew ht

end Claims

namespace Claims

variable {threads : ℕ} {W : Thread C → Option (Work F X)} (h : Claims threads p W)

include h

/-- A pool without a claimable chunk stays so. -/
theorem idle_work [DecidableEq C] (hcrew : Crew threads p W) (hthreads : threads ≤ maxThreads)
    (hidle : (dispenser p W).Idle) {t : Thread C} {w : Work F X} (ht : W t = some w) :
    (dispenser (stepWork p (slotOf p.workers t) w).1
      (update W t (stepWork p (slotOf p.workers t) w).2)).Idle := by
  -- an idle pool hands out no ticket, so the thread only looks for one
  have hnone : w.claim = none := by
    have := hidle.2 t
    simpa only [dispenser, ht, bind_some] using this
  have hheld : ∀ (p' : Pool F X) (o : Option (Work F X)), o.bind Work.claim = none → ∀ t',
      (dispenser p' (update W t o)).held t' = none := by
    intro p' o ho t'
    rw [dispenser_update]
    by_cases htt : t' = t
    · rw [htt]
      simp only [update_self, ho]
    · simp only [update_of_ne htt]
      exact hidle.2 t'
  cases w with
  | load =>
    rw [stepWork]
    split
    · exact ⟨hidle.1, hheld p none rfl⟩
    · exact ⟨hidle.1, hheld p (some .add) rfl⟩
  | add =>
    have hexhausted : ticketExhausted p.ticket = true := by
      have hle := hidle.1
      unfold ticketExhausted
      rw [decide_eq_true_eq, h.count]
      exact hle
    rw [stepWork, if_pos hexhausted]
    refine ⟨?_, hheld _ none rfl⟩
    have hnext := ticketNext_add (h.next_lt hcrew hthreads ht)
    have hle := hidle.1
    rw [dispenser_ticket, hnext]
    exact Nat.le_succ_of_le hle
  | read number chunk => cases hnone
  | run r => cases hnone
  | count r => cases hnone
  | store r v => cases hnone

/-- The first worker threads are counted before anything is published. -/
theorem grow (hpublished : p.published = []) (n : ℕ) : Claims threads { p with workers := n } W := by
  have hclaim : ∀ {t w k}, W t = some w → w.claim ≠ some k := by
    intro t w k hw hk
    have hheld : (dispenser p W).held t = some k := by simp only [dispenser, hw, bind_some, hk]
    have := (h.tickets.current hheld).1
    simp [dispenser, hpublished] at this
  have hnil : p.finished = [] := by
    rw [eq_nil_iff_forall_not_mem]
    intro r hr
    have hmem : (r.job, r.chunk) ∈ (dispenser p W).finished := List.mem_map.mpr ⟨r, hr, rfl⟩
    have hvalid := h.tickets.valid hmem
    simp only [dispenser, hpublished, length_nil] at hvalid
    omega
  exact {
    tickets := h.tickets
    count := h.count
    small := h.small
    misses := h.misses
    completed := h.completed
    stored := fun hw => absurd rfl (hclaim hw)
    slots := fun hw hr => absurd (Work.claim_of_called hr) (hclaim hw)
    called := h.called
    finished := fun hr => by rw [hnil] at hr; cases hr
    calls := h.calls
    nodup := h.nodup
    below := fun hw hk => absurd hk (hclaim hw)
    one := h.one }

/-- The store of the ticket publishes the record. -/
theorem publish (hcrew : Crew threads p W) (hidle : (dispenser p W).Idle) {job : MtpJob F X} (hthreads : threads ≤ maxThreads) {n : ℕ}
    (hn : n ≤ 4 * threads) [DecidableEq C] :
    Claims threads { p with ticket := n, published := (job, n) :: p.published } W := by
  unfold maxThreads at hthreads
  have hcount : ticketCount n = n := Nat.mod_eq_of_lt (by omega)
  have hnext : ticketNext n = 0 := by
    unfold ticketNext
    omega
  have hentry : publishedCount ((job, n) :: p.published) ((job, n) :: p.published).length = n := by
    rw [publishedCount_cons, length_cons, update_self]
  -- the pool is idle, so no thread holds a ticket of the new job
  have hclaim : ∀ {t w k}, W t = some w → w.claim ≠ some k := by
    intro t w k hw hk
    have := hidle.2 t
    simp only [dispenser, hw, bind_some, hk] at this
    cases this
  exact {
    tickets := by
      have := h.tickets.step (.publish n hidle)
      unfold dispenser at this ⊢
      simp only [hnext, publishedCount_cons, length_cons]
      exact this
    count := by
      simp only [hcount, hentry]
    small := by
      simp only [hcount]
      exact hn
    misses := fun hle => by
      simp only [hcount, hnext] at hle ⊢
      have := hcrew.ncard_le
      omega
    completed := h.completed
    stored := fun hw => absurd rfl (hclaim hw)
    slots := fun hw hr => absurd (Work.claim_of_called hr) (hclaim hw)
    called := h.called
    finished := h.finished
    calls := fun hr => by
      obtain ⟨⟨job', m, hjob, hlt, hcall⟩, hwhere⟩ := h.calls hr
      exact ⟨⟨job', m, publication_cons hjob _, hlt, hcall⟩, hwhere⟩
    nodup := h.nodup
    below := h.below
    one := h.one }

end Claims

/-- What a step of `mtp_work` leaves alone. -/
theorem stepWork_frame (p : Pool F X) (slot : ℕ) (w : Work F X) :
    (stepWork p slot w).1.job = p.job ∧ (stepWork p slot w).1.published = p.published ∧
      (stepWork p slot w).1.busy = p.busy ∧ (stepWork p slot w).1.workers = p.workers ∧
      (stepWork p slot w).1.spawned = p.spawned ∧ (stepWork p slot w).1.dispatched = p.dispatched := by
  cases w with
  | read number chunk =>
    rw [stepWork]
    split <;> simp only [and_self]
  | _ => simp only [stepWork, and_self]

/-- A step of `mtp_work` completes at most the chunk that the thread has claimed. -/
theorem stepWork_finished (p : Pool F X) (slot : ℕ) (w : Work F X) :
    (stepWork p slot w).1.finished = p.finished ∨
      ∃ r, w.called = some r ∧ (stepWork p slot w).1.finished = r :: p.finished := by
  cases w with
  | read number chunk =>
    rw [stepWork]
    split <;> exact Or.inl rfl
  | store r v => exact Or.inr ⟨r, rfl, by simp only [stepWork]⟩
  | _ => exact Or.inl (by simp only [stepWork])

end Mettle.Runtime.Parallel

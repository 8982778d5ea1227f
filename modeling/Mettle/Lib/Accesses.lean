import Mettle.Lib.Memory

/-!
# Accesses to memory by several threads

An access stores given bytes, or loads bytes and stores them elsewhere. One thread makes its accesses one after the
other. Several threads make theirs in any order of steps, a load and the store after it being two of them. Where every
access writes what a final memory holds there and reads what is not written, each byte is the old or the final one at
every time, and the final one as soon as no access is left that writes it.
-/

open List Option

namespace Mettle.Lib

/-- What an access stores: given bytes, or those that it loads. -/
inductive Value where
  | bytes (b : List (BitVec 8))
  | load (s n : ℕ)
  deriving DecidableEq

/-- An access; a streaming store needs an address that is a multiple of sixteen. -/
structure Access where
  stream : Bool
  dest : ℕ
  value : Value
  deriving DecidableEq

namespace Access

/-- The first half of an access. -/
def read (m : Memory) (a : Access) : Option (List (BitVec 8)) :=
  match a.value with
  | .bytes b => some b
  | .load s n => m.load s n

/-- The second half of an access. -/
def put (m : Memory) (a : Access) (b : List (BitVec 8)) : Option Memory :=
  if a.stream = true ∧ a.dest % 16 ≠ 0 then none else m.store a.dest b

def run (m : Memory) (a : Access) : Option Memory := (a.read m).bind (a.put m)

/-- The number of bytes that an access writes. -/
def size (a : Access) : ℕ :=
  match a.value with
  | .bytes b => b.length
  | .load _ n => n

end Access

/-- The accesses of one thread, one after the other. -/
def runAccesses (m : Memory) (l : List Access) : Option Memory := l.foldlM Access.run m

@[simp] theorem runAccesses_nil (m : Memory) : runAccesses m [] = some m := rfl

/-- The first access, then the others. -/
@[simp] theorem runAccesses_cons (m : Memory) (a : Access) (l : List Access) :
    runAccesses m (a :: l) = (a.run m).bind fun m' => runAccesses m' l := rfl

/-- An access that stores bytes. -/
theorem Access.run_bytes {m : Memory} {a : Access} {b : List (BitVec 8)} (hvalue : a.value = .bytes b)
    (halign : a.stream = true → a.dest % 16 = 0) : a.run m = m.store a.dest b := by
  rw [run, read, hvalue, bind_some, put, if_neg fun h => h.2 (halign h.1)]

/-- An access that moves bytes. -/
theorem Access.run_load {m : Memory} {a : Access} {s n : ℕ} (hvalue : a.value = .load s n)
    (halign : a.stream = true → a.dest % 16 = 0) : a.run m = m.move a.dest s n := by
  rw [run, read, hvalue, Memory.move]
  congr 1
  funext b
  rw [put, if_neg fun h => h.2 (halign h.1)]

/-! ## Accesses side by side -/

/-- Accesses that write the bytes from an offset on, each behind the one before; `value` says what is written from an
offset on. -/
inductive Tiles (d : ℕ) (value : ℕ → ℕ → Value) : ℕ → ℕ → List Access → Prop
  | nil {o : ℕ} : Tiles d value o 0 []
  | cons {o k n : ℕ} {a : Access} {l : List Access} (hdest : a.dest = d + o) (hvalue : a.value = value o k)
      (halign : a.stream = true → a.dest % 16 = 0) (hrest : Tiles d value (o + k) n l) : Tiles d value o (k + n) (a :: l)

namespace Tiles

variable {d o n : ℕ} {value : ℕ → ℕ → Value} {l : List Access}

/-- An access for each byte. -/
theorem single (f : ℕ → Access) (hdest : ∀ i, (f i).dest = d + o + i) (hvalue : ∀ i < n, (f i).value = value (o + i) 1)
    (hstream : ∀ i, (f i).stream = false) : Tiles d value o n ((range n).map f) := by
  induction n generalizing o f with
  | zero => exact .nil
  | succ n ih =>
    rw [range_succ_eq_map, map_cons, List.map_map, Nat.add_comm n]
    refine .cons (hdest 0) (hvalue 0 (Nat.succ_pos n)) (fun h => ?_) (ih _ (fun i => ?_) (fun i hi => ?_) fun i => ?_)
    · rw [hstream 0] at h
      cases h
    · rw [Function.comp_apply, hdest]
      omega
    · rw [Function.comp_apply, hvalue (i + 1) (by omega)]
      congr 1
      omega
    · exact hstream (i + 1)

/-- Two tilings, one behind the other. -/
theorem append {k : ℕ} {l' : List Access} (h : Tiles d value o n l) (h' : Tiles d value (o + n) k l') :
    Tiles d value o (n + k) (l ++ l') := by
  induction h with
  | nil => rwa [Nat.zero_add]
  | cons hdest hvalue halign hrest ih =>
    rw [cons_append, Nat.add_assoc]
    refine .cons hdest hvalue halign (ih ?_)
    rwa [Nat.add_assoc]

/-- Every access is at some offset, and every byte is written by one of them. -/
theorem inside (h : Tiles d value o n l) :
    ∀ a ∈ l, ∃ p k, o ≤ p ∧ p + k ≤ o + n ∧ a.dest = d + p ∧ a.value = value p k ∧ (a.stream = true → a.dest % 16 = 0) := by
  induction h with
  | nil => exact fun a ha => absurd ha not_mem_nil
  | @cons o k n a l hdest hvalue halign hrest ih =>
    intro b hb
    rcases mem_cons.mp hb with rfl | hb
    · exact ⟨o, k, le_rfl, by omega, hdest, hvalue, halign⟩
    · obtain ⟨p, j, hp, hj, hrest⟩ := ih b hb
      exact ⟨p, j, by omega, by omega, hrest⟩

/-- Each byte of the span is in some access. -/
theorem covers (h : Tiles d value o n l) (hsize : ∀ a ∈ l, ∀ p k, a.value = value p k → a.size = k) {z : ℕ}
    (hlow : d + o ≤ z) (hhigh : z < d + o + n) : ∃ a ∈ l, a.dest ≤ z ∧ z < a.dest + a.size := by
  induction h with
  | nil => omega
  | @cons o k n a l hdest hvalue halign hrest ih =>
    by_cases hin : z < d + o + k
    · refine ⟨a, mem_cons_self, by omega, ?_⟩
      rw [hdest, hsize a (.head _) o k hvalue]
      exact hin
    · obtain ⟨b, hb, hz⟩ := ih (fun b hb => hsize b (mem_cons_of_mem a hb)) (by omega) (by omega)
      exact ⟨b, mem_cons_of_mem a hb, hz⟩

/-- One thread that stores bytes side by side stores them all. -/
theorem run_bytes {bytes : ℕ → ℕ → List (BitVec 8)} (hlength : ∀ o n, (bytes o n).length = n)
    (hadd : ∀ o n k, bytes o (n + k) = bytes o n ++ bytes (o + n) k)
    (h : Tiles d (fun o n => .bytes (bytes o n)) o n l) (m : Memory) : runAccesses m l = m.store (d + o) (bytes o n) := by
  induction h generalizing m with
  | @nil o =>
    rw [runAccesses_nil, eq_nil_of_length_eq_zero (hlength o 0), Memory.store_nil]
  | @cons o k n a l hdest hvalue halign hrest ih =>
    rw [runAccesses_cons, Access.run_bytes hvalue halign, hadd, Memory.store_append, hlength, hdest]
    congr 1
    funext m'
    rw [ih, Nat.add_assoc]

/-- One thread that moves bytes side by side, the first ones first, moves them all, unless the destination is inside or
behind the source. -/
theorem run_load {s : ℕ} (h : Tiles d (fun o n => .load (s + o) n) o n l) (hmove : d ≤ s ∨ s + n ≤ d) (m : Memory) :
    runAccesses m l = m.move (d + o) (s + o) n := by
  induction h generalizing m with
  | nil => rw [runAccesses_nil, Memory.move_zero]
  | @cons o k n a l hdest hvalue halign hrest ih =>
    rw [runAccesses_cons, Access.run_load hvalue halign, Memory.move_forward (by omega), hdest]
    congr 1
    funext m'
    rw [ih (by omega), Nat.add_assoc, Nat.add_assoc]

end Tiles

/-! ## Threads -/

/-- A thread between two steps: the access it has read for and not yet written, and those that are left. -/
structure Thread where
  pending : Option (Access × List (BitVec 8))
  rest : List Access
  deriving DecidableEq

/-- A thread that starts. -/
def Thread.start (l : List Access) : Thread := ⟨none, l⟩

def Thread.Finished (t : Thread) : Prop := t.pending = none ∧ t.rest = []

instance (t : Thread) : Decidable t.Finished := inferInstanceAs (Decidable (_ ∧ _))

/-- A step of a thread; one that has finished stays. -/
def Thread.step (m : Memory) (t : Thread) : Option (Memory × Thread) :=
  match t.pending, t.rest with
  | some (a, b), rest => (a.put m b).map fun m' => (m', ⟨none, rest⟩)
  | none, a :: rest => (a.read m).map fun b => (m, ⟨some (a, b), rest⟩)
  | none, [] => some (m, t)

section

variable {m : Memory} {a : Access} {b : List (BitVec 8)} {rest : List Access}

/-- A thread that has read writes. -/
@[simp] theorem Thread.step_store : Thread.step m ⟨some (a, b), rest⟩ = (a.put m b).map fun m' => (m', ⟨none, rest⟩) := rfl

/-- A thread that has not reads. -/
@[simp] theorem Thread.step_load : Thread.step m ⟨none, a :: rest⟩ = (a.read m).map fun b => (m, ⟨some (a, b), rest⟩) := rfl

end

/-- The threads take steps in the order of a schedule. -/
def runThreads (m : Memory) (ts : List Thread) : List ℕ → Option (Memory × List Thread)
  | [] => some (m, ts)
  | i :: schedule =>
    match ts[i]? with
    | none => runThreads m ts schedule
    | some t => (t.step m).bind fun p => runThreads p.1 (ts.set i p.2) schedule

section

variable {m final : Memory}

/-- An access that writes what the final memory holds, reading what is not written. -/
structure Access.Good (m final : Memory) (a : Access) : Prop where
  mapped : m.Mapped a.dest a.size
  aligned : a.stream = true → a.dest % 16 = 0
  writes : ∀ b, a.read m = some b → ∀ i < a.size, final (a.dest + i) = b[i]?
  reads : ∀ s n, a.value = .load s n → ∀ i < n, final (s + i) = m (s + i) ∧ (m (s + i)).isSome = true

/-- The bytes a thread has yet to write. -/
def Thread.Owes (t : Thread) (z : ℕ) : Prop :=
  (∃ a b, t.pending = some (a, b) ∧ a.dest ≤ z ∧ z < a.dest + a.size) ∨ ∃ a ∈ t.rest, a.dest ≤ z ∧ z < a.dest + a.size

/-- What holds at every time, for threads that began in the memory `m`. -/
structure Progress (m final : Memory) (now : Memory) (ts : List Thread) : Prop where
  old : ∀ z, now z = m z ∨ now z = final z
  owed : ∀ z, now z = final z ∨ ∃ t ∈ ts, t.Owes z
  good : ∀ t ∈ ts, ∀ a ∈ t.rest, a.Good m final
  pending : ∀ t ∈ ts, ∀ a b, t.pending = some (a, b) → a.Good m final ∧ a.read m = some b

/-- A read gives as many bytes as the access has. -/
theorem Access.read_length {a : Access} {b : List (BitVec 8)} (h : a.read m = some b) : b.length = a.size := by
  rw [Access.read] at h
  rw [Access.size]
  cases hvalue : a.value with
  | bytes c =>
    rw [hvalue] at h
    rw [← some.inj h]
  | load s n =>
    rw [hvalue] at h
    exact Memory.load_length h

/-- After a step of one thread the others are as before. -/
theorem mem_set_of_mem {ts : List Thread} {i : ℕ} {t u : Thread} (t' : Thread) (ht : ts[i]? = some t) (hu : u ∈ ts) :
    u = t ∨ u ∈ ts.set i t' := by
  obtain ⟨j, hj, rfl⟩ := mem_iff_getElem.mp hu
  by_cases hij : i = j
  · subst hij
    left
    rw [List.getElem?_eq_getElem hj] at ht
    exact some.inj ht
  · right
    rw [mem_iff_getElem]
    refine ⟨j, by rwa [length_set], ?_⟩
    rw [getElem_set_ne hij]

/-- The thread itself is there. -/
theorem mem_set_self {ts : List Thread} {i : ℕ} {t t' : Thread} (ht : ts[i]? = some t) : t' ∈ ts.set i t' := by
  obtain ⟨hlt, -⟩ := List.getElem?_eq_some_iff.mp ht
  exact mem_set hlt t'

namespace Progress

variable {now : Memory} {ts : List Thread} {i : ℕ} {t : Thread}

section

variable (h : Progress m final now ts)
include h

/-- What an access reads is what it would have read at the start. -/
theorem read_eq {a : Access} (ha : a.Good m final) : a.read now = a.read m ∧ ∃ b, a.read m = some b := by
  have hreads := ha.reads
  simp only [Access.read]
  cases hvalue : a.value with
  | bytes b => exact ⟨rfl, b, rfl⟩
  | load s n =>
    have hload : now.load s n = m.load s n := by
      apply Memory.load_congr
      intro j hj
      rcases h.old (s + j) with hold | hnew
      · exact hold
      · rw [hnew, (hreads s n hvalue j hj).1]
    refine ⟨hload, ?_⟩
    exact Memory.Mapped.load fun j hj => (hreads s n hvalue j hj).2

/-- The first half of an access. -/
theorem load (ht : ts[i]? = some t) {a : Access} {b : List (BitVec 8)} {rest : List Access}
    (hpending : t.pending = none) (hrest : t.rest = a :: rest) (hb : a.read m = some b) :
    Progress m final now (ts.set i ⟨some (a, b), rest⟩) := by
  have hmem := mem_of_getElem? ht
  have ha : a.Good m final := h.good t hmem a (by rw [hrest]; exact (.head _))
  refine ⟨h.old, ?_, ?_, ?_⟩
  · intro z
    refine (h.owed z).imp_right ?_
    rintro ⟨u, hu, howes⟩
    rcases mem_set_of_mem ⟨some (a, b), rest⟩ ht hu with rfl | hother
    · refine ⟨_, mem_set_self ht, ?_⟩
      rcases howes with ⟨a', b', hsome, -⟩ | ⟨a', ha', hz⟩
      · rw [hpending] at hsome
        cases hsome
      · rw [hrest] at ha'
        rcases mem_cons.mp ha' with rfl | ha'
        · exact Or.inl ⟨a', b, rfl, hz⟩
        · exact Or.inr ⟨a', ha', hz⟩
    · exact ⟨u, hother, howes⟩
  · intro u hu a' ha'
    rcases mem_or_eq_of_mem_set hu with hu | rfl
    · exact h.good u hu a' ha'
    · exact h.good t hmem a' (by rw [hrest]; exact mem_cons_of_mem a ha')
  · intro u hu a' b' hsome
    rcases mem_or_eq_of_mem_set hu with hu | rfl
    · exact h.pending u hu a' b' hsome
    · cases hsome
      exact ⟨ha, hb⟩

/-- The second half of an access. -/
theorem store (ht : ts[i]? = some t) {a : Access} {b : List (BitVec 8)} (hpending : t.pending = some (a, b)) :
    a.put now b = some (now.write a.dest b) ∧ Progress m final (now.write a.dest b) (ts.set i ⟨none, t.rest⟩) := by
  have hmem := mem_of_getElem? ht
  obtain ⟨ha, hb⟩ := h.pending t hmem a b hpending
  have hlen := Access.read_length hb
  -- the bytes that one access carries are the final ones at its target
  have hfinal {j : ℕ} (hj : j < a.size) : final (a.dest + j) = b[j]? := ha.writes b hb j hj
  have hwrite (z : ℕ) : now.write a.dest b z = if a.dest ≤ z ∧ z < a.dest + a.size then final z else now z := by
    by_cases hin : a.dest ≤ z ∧ z < a.dest + a.size
    · obtain ⟨j, rfl⟩ := Nat.exists_eq_add_of_le hin.1
      rw [if_pos hin, Memory.write_inside (by omega), hfinal (by omega)]
    · rw [if_neg hin, Memory.write_outside (by omega)]
  have hmapped : now.Mapped a.dest b.length := by
    intro j hj
    rcases h.old (a.dest + j) with hold | hnew
    · rw [hold]
      exact ha.mapped j (by omega)
    · rw [hnew, hfinal (by omega), List.getElem?_eq_getElem hj]
      rfl
  refine ⟨?_, ?_, ?_, ?_, ?_⟩
  · rw [Access.put, if_neg fun hbad => hbad.2 (ha.aligned hbad.1), hmapped.store]
  · intro z
    rw [hwrite]
    by_cases hin : a.dest ≤ z ∧ z < a.dest + a.size
    · rw [if_pos hin]
      exact Or.inr rfl
    · rw [if_neg hin]
      exact h.old z
  -- a byte not final yet is owed by another task, since this one owed only what it has written
  · intro z
    rw [hwrite]
    by_cases hin : a.dest ≤ z ∧ z < a.dest + a.size
    · rw [if_pos hin]
      exact Or.inl rfl
    · rw [if_neg hin]
      refine (h.owed z).imp_right ?_
      rintro ⟨u, hu, howes⟩
      rcases mem_set_of_mem ⟨none, t.rest⟩ ht hu with rfl | hother
      · refine ⟨_, mem_set_self ht, ?_⟩
        rcases howes with ⟨a', b', hsome, hz⟩ | hrest
        · rw [hpending] at hsome
          cases hsome
          exact absurd hz hin
        · exact Or.inr hrest
      · exact ⟨u, hother, howes⟩
  · intro u hu a' ha'
    rcases mem_or_eq_of_mem_set hu with hu | rfl
    · exact h.good u hu a' ha'
    · exact h.good t hmem a' ha'
  · intro u hu a' b' hsome
    rcases mem_or_eq_of_mem_set hu with hu | rfl
    · exact h.pending u hu a' b' hsome
    · cases hsome

/-- A step keeps the progress of all threads. -/
theorem step (ht : ts[i]? = some t) :
    ∃ now' t', t.step now = some (now', t') ∧ Progress m final now' (ts.set i t') := by
  have hmem := mem_of_getElem? ht
  obtain ⟨pending, rest⟩ := t
  cases pending with
  | some p =>
    obtain ⟨a, b⟩ := p
    obtain ⟨hput, hnext⟩ := h.store ht (a := a) (b := b) rfl
    refine ⟨_, ⟨none, rest⟩, ?_, hnext⟩
    rw [Thread.step_store, hput]
    rfl
  | none =>
    cases rest with
    | nil =>
      refine ⟨now, _, rfl, ?_⟩
      obtain ⟨hlt, hget⟩ := List.getElem?_eq_some_iff.mp ht
      rw [← hget, set_getElem_self hlt]
      exact h
    | cons a rest =>
      obtain ⟨hread, b, hb⟩ := h.read_eq (h.good _ hmem a (.head _))
      refine ⟨now, ⟨some (a, b), rest⟩, ?_, h.load ht rfl rfl hb⟩
      rw [Thread.step_load, hread, hb]
      rfl

/-- So does every schedule. -/
theorem run (schedule : List ℕ) :
    ∃ now' ts', runThreads now ts schedule = some (now', ts') ∧ Progress m final now' ts' := by
  induction schedule generalizing now ts with
  | nil => exact ⟨now, ts, rfl, h⟩
  | cons i schedule ih =>
    rw [runThreads]
    cases ht : ts[i]? with
    | none => exact ih h
    | some t =>
      obtain ⟨now', t', hstep, hnext⟩ := h.step ht
      obtain ⟨now'', ts', hrun, hend⟩ := ih hnext
      refine ⟨now'', ts', ?_, hend⟩
      show ((t.step now).bind _) = _
      rw [hstep]
      exact hrun

/-- When the threads have finished, the memory is the final one. -/
theorem finished (hfinished : ∀ t ∈ ts, t.Finished) : now = final := by
  funext z
  rcases h.owed z with heq | ⟨t, ht, howes⟩
  · exact heq
  · obtain ⟨hpending, hrest⟩ := hfinished t ht
    rcases howes with ⟨a, b, hsome, -⟩ | ⟨a, ha, -⟩
    · rw [hpending] at hsome
      cases hsome
    · rw [hrest] at ha
      cases ha

end

/-- Threads that start. -/
theorem start {ls : List (List Access)} (hgood : ∀ l ∈ ls, ∀ a ∈ l, a.Good m final)
    (howed : ∀ z, m z = final z ∨ ∃ l ∈ ls, ∃ a ∈ l, a.dest ≤ z ∧ z < a.dest + a.size) :
    Progress m final m (ls.map Thread.start) := by
  refine ⟨fun z => Or.inl rfl, ?_, ?_, ?_⟩
  · intro z
    refine (howed z).imp_right ?_
    rintro ⟨l, hl, a, ha, hz⟩
    exact ⟨Thread.start l, List.mem_map_of_mem hl, Or.inr ⟨a, ha, hz⟩⟩
  · intro t ht a ha
    obtain ⟨l, hl, rfl⟩ := List.mem_map.mp ht
    exact hgood l hl a ha
  · intro t ht a b hsome
    obtain ⟨l, hl, rfl⟩ := List.mem_map.mp ht
    cases hsome

end Progress

/-! ## Turns -/

/-- The steps a thread has yet to take. -/
def Thread.turns (t : Thread) : ℕ := 2 * t.rest.length + if t.pending.isSome then 1 else 0

theorem Thread.finished_iff {t : Thread} : t.Finished ↔ t.turns = 0 := by
  obtain ⟨pending, rest⟩ := t
  cases pending with
  | none => simp [Finished, turns]
  | some p => simp [Finished, turns]

/-- A step takes a turn. -/
theorem Thread.turns_step {now now' : Memory} {t t' : Thread} (h : t.step now = some (now', t')) :
    t'.turns = t.turns - 1 := by
  obtain ⟨pending, rest⟩ := t
  cases pending with
  | some p =>
    rw [Thread.step_store, map_eq_some_iff] at h
    obtain ⟨_, -, heq⟩ := h
    rw [← (Prod.mk.inj heq).2]
    rfl
  | none =>
    cases rest with
    | nil =>
      rw [← (Prod.mk.inj (some.inj h)).2]
      rfl
    | cons a rest =>
      rw [Thread.step_load, map_eq_some_iff] at h
      obtain ⟨_, -, heq⟩ := h
      rw [← (Prod.mk.inj heq).2]
      show 2 * rest.length + 1 = 2 * (rest.length + 1) + 0 - 1
      omega

/-- Each turn of a thread is one step less. -/
theorem turns_runThreads {now now' : Memory} {ts ts' : List Thread} {schedule : List ℕ}
    (h : runThreads now ts schedule = some (now', ts')) (i : ℕ) :
    (ts'[i]?).map Thread.turns = (ts[i]?).map fun t => t.turns - schedule.count i := by
  induction schedule generalizing now ts with
  | nil =>
    obtain ⟨-, rfl⟩ := Prod.mk.inj (some.inj h)
    rfl
  | cons j schedule ih =>
    rw [runThreads] at h
    cases ht : ts[j]? with
    | none =>
      rw [ht] at h
      rw [ih h]
      by_cases hij : j = i
      · subst hij
        rw [ht]
        rfl
      · rw [count_cons_of_ne hij]
    | some t =>
      rw [ht] at h
      obtain ⟨p, hstep, hrun⟩ := bind_eq_some_iff.mp h
      rw [ih hrun]
      by_cases hij : j = i
      · subst hij
        obtain ⟨hlt, -⟩ := List.getElem?_eq_some_iff.mp ht
        rw [List.getElem?_set_self hlt, ht, map_some, map_some, count_cons_self,
          Thread.turns_step hstep, Nat.sub_sub, Nat.add_comm]
      · rw [List.getElem?_set_ne hij, count_cons_of_ne hij]

/-- Threads that have had enough turns have finished. -/
theorem finished_of_turns {now : Memory} {ls : List (List Access)} {ts : List Thread} {schedule : List ℕ}
    (h : runThreads m (ls.map Thread.start) schedule = some (now, ts))
    (hturns : ∀ i l, ls[i]? = some l → 2 * l.length ≤ schedule.count i) : ∀ t ∈ ts, t.Finished := by
  intro t ht
  obtain ⟨i, hi, rfl⟩ := mem_iff_getElem.mp ht
  have hcount := turns_runThreads h i
  rw [List.getElem?_eq_getElem hi, map_some, List.getElem?_map, Option.map_map] at hcount
  obtain ⟨l, hl, heq⟩ := map_eq_some_iff.mp hcount.symm
  rw [Thread.finished_iff, ← heq]
  have hle := hturns i l hl
  show 2 * l.length + 0 - schedule.count i = 0
  omega

/-! ## One thread -/

/-- What is left of a thread's accesses, made one after the other. -/
def Thread.finish (m : Memory) (t : Thread) : Option Memory :=
  match t.pending with
  | some (a, b) => (a.put m b).bind fun m' => runAccesses m' t.rest
  | none => runAccesses m t.rest

/-- A step does not change what a thread makes alone. -/
theorem Thread.finish_step (m : Memory) (t : Thread) : ((t.step m).bind fun p => p.2.finish p.1) = t.finish m := by
  obtain ⟨pending, rest⟩ := t
  cases pending with
  | some p =>
    rw [Thread.step_store, bind_map]
    rfl
  | none =>
    cases rest with
    | nil => rfl
    | cons a rest =>
      rw [Thread.step_load, bind_map]
      show _ = runAccesses m (a :: rest)
      rw [runAccesses_cons, Access.run, bind_assoc]
      rfl

/-- A single thread does not fault where its accesses in a row do not, and ends where they end. -/
theorem runThreads_single {m' : Memory} {t : Thread} (h : t.finish m = some m') (schedule : List ℕ) :
    ∃ now t', runThreads m [t] schedule = some (now, [t']) ∧ (t'.Finished → now = m') := by
  induction schedule generalizing m t with
  | nil =>
    refine ⟨m, t, rfl, ?_⟩
    rintro ⟨hpending, hrest⟩
    rw [Thread.finish, hpending, hrest] at h
    exact some.inj h
  | cons i schedule ih =>
    cases i with
    | zero =>
      rw [← Thread.finish_step, bind_eq_some_iff] at h
      obtain ⟨p, hstep, hfinish⟩ := h
      show ∃ now t', ((t.step m).bind _) = _ ∧ _
      rw [hstep]
      exact ih hfinish
    | succ i => exact ih h

end

end Mettle.Lib

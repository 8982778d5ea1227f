import Mettle.Lib.Accesses
import Mettle.Runtime.ParallelRange

/-!
# Filling and copying in parallel

The memory jobs of `runtime/parallel.c`. A span is the list of accesses that one call makes to memory, vectors being
sixteen bytes; the two parallel routines give the lists of the calls that `mettle_parallel_range` makes. The operations
on `long long` that may overflow have no result where they do. The fence behind streaming stores orders nothing here,
since no access is reordered with another one of its thread that overlaps it.
-/

namespace Mettle.Runtime

section

open Mettle.Lib Mettle.Runtime.Parallel

/-- `MTP_MEMORY_CHUNK_BYTES`. -/
def memoryChunkBytes : ℤ := 262144

/-- `MTP_STREAM_THRESHOLD_BYTES`. -/
def streamThresholdBytes : ℤ := 8 * 2 ^ 20

/-- `MtpMemoryJob`; the pattern is the array of sixteen bytes. -/
structure MtpMemoryJob where
  destination : ℕ
  source : ℕ
  pattern : ℕ → BitVec 8
  period : ℕ
  stream : Bool

/-- `mtp_bytes_to_alignment`. -/
def mtpBytesToAlignment (d : ℕ) : ℕ := (16 - d % 16) % 16

/-- `job->pattern[(unsigned)i & mask]`. -/
def MtpMemoryJob.patternAt (job : MtpMemoryJob) (i : ℕ) : BitVec 8 := job.pattern (i % 2 ^ 32 &&& (job.period - 1))

/-- `mtp_fill_span`. -/
def mtpFillSpan (d n : ℕ) (job : MtpMemoryJob) : List Access :=
  let head := min (mtpBytesToAlignment d) n
  let value := Value.bytes ((List.range 16).map fun i => job.patternAt (head + i))
  (List.range head).map (fun i => ⟨false, d + i, .bytes [job.patternAt i]⟩) ++
    whileBlocks 64
      (fun o rest =>
        ⟨job.stream, d + head + o, value⟩ :: ⟨job.stream, d + head + o + 16, value⟩ ::
        ⟨job.stream, d + head + o + 32, value⟩ :: ⟨job.stream, d + head + o + 48, value⟩ :: rest)
      (whileBlocks 16 (fun o rest => ⟨job.stream, d + head + o, value⟩ :: rest)
        fun o n => (List.range n).map fun i => ⟨false, d + head + o + i, .bytes [job.patternAt (head + i)]⟩)
      0 (n - head)

/-- `mtp_copy_span`. -/
def mtpCopySpan (d s n : ℕ) (stream : Bool) : List Access :=
  let head := min (mtpBytesToAlignment d) n
  (List.range head).map (fun i => ⟨false, d + i, .load (s + i) 1⟩) ++
    whileBlocks 64
      (fun o rest =>
        ⟨stream, d + head + o, .load (s + head + o) 16⟩ :: ⟨stream, d + head + o + 16, .load (s + head + o + 16) 16⟩ ::
        ⟨stream, d + head + o + 32, .load (s + head + o + 32) 16⟩ ::
        ⟨stream, d + head + o + 48, .load (s + head + o + 48) 16⟩ :: rest)
      (whileBlocks 16 (fun o rest => ⟨stream, d + head + o, .load (s + head + o) 16⟩ :: rest)
        fun o n => (List.range n).map fun i => ⟨false, d + head + o + i, .load (s + head + o + i) 1⟩)
      0 (n - head)

/-- `mtp_move_overlapping`. -/
def mtpMoveOverlapping (d s n : ℕ) : List Access :=
  let byte (i : ℕ) : Access := ⟨false, d + i, .load (s + i) 1⟩
  if d < s then if 16 ≤ s - d then mtpCopySpan d s n false else (List.range n).map byte
  else
    let down (n : ℕ) : List Access := (List.range n).reverse.map byte
    if 16 ≤ d - s then whileBack 16 (fun n rest => ⟨false, d + n, .load (s + n) 16⟩ :: rest) down n else down n

/-- `mtp_fill_body`. -/
def mtpFillBody (job : MtpMemoryJob) (lo hi : ℤ) : Option (List Access) := do
  let offset ← long (lo * job.period)
  let bytes ← long ((hi - lo) * job.period)
  some (mtpFillSpan (job.destination + offset.toNat) bytes.toNat job)

/-- `mtp_copy_body`. -/
def mtpCopyBody (job : MtpMemoryJob) (lo hi : ℤ) : List Access :=
  mtpCopySpan (job.destination + lo.toNat) (job.source + lo.toNat) (hi - lo).toNat job.stream

/-- The job of `mettle_parallel_fill`. -/
def fillJob (destination period : ℕ) (value : BitVec 64) (bytes : ℤ) : MtpMemoryJob where
  destination := destination
  source := 0
  pattern := fun i => (value.sshiftRight (8 * (i &&& (period - 1)))).setWidth 8
  period := period
  stream := streamThresholdBytes ≤ bytes

/-- The job of `mettle_parallel_copy_bytes`. -/
def copyJob (destination source : ℕ) (bytes : ℤ) : MtpMemoryJob where
  destination := destination
  source := source
  pattern := fun _ => 0#8
  period := 1
  stream := streamThresholdBytes ≤ bytes

/-- `mettle_parallel_fill`: the accesses of each call, given the number of threads and whether the pool can be acquired. -/
def mettleParallelFill (threads : ℕ) (acquired : Bool) (destination : ℕ) (count value : BitVec 64)
    (elementSize : BitVec 32) : Option (List (List Access)) := do
  let period : ℕ := if elementSize = 2#32 ∨ elementSize = 4#32 ∨ elementSize = 8#32 then elementSize.toNat else 1
  if destination = 0 ∨ count.toInt ≤ 0 then some []
  else do
    let bytes ← long (count.toInt * period)
    let ranges ← rangeCalls threads acquired 0 count.toInt (memoryChunkBytes / period)
    ranges.mapM fun r => mtpFillBody (fillJob destination period value bytes) r.1 r.2

/-- `mettle_parallel_copy_bytes`. -/
def mettleParallelCopyBytes (threads : ℕ) (acquired : Bool) (destination source : ℕ) (bytes : BitVec 64) :
    Option (List (List Access)) := do
  if destination = 0 ∨ source = 0 ∨ bytes.toInt ≤ 0 ∨ destination = source then some []
  else if destination < source + bytes.toNat ∧ source < destination + bytes.toNat then
    some [mtpMoveOverlapping destination source bytes.toNat]
  else do
    let ranges ← rangeCalls threads acquired 0 bytes.toInt memoryChunkBytes
    some (ranges.map fun r => mtpCopyBody (copyJob destination source bytes.toInt) r.1 r.2)

end

/-!
## Filling and copying in parallel is right

Every span writes its bytes side by side. In a row its accesses are one store or one move. The spans of several threads
write what the whole store or move writes, whatever the order in which the threads take their steps.
-/

open Mettle.Lib Mettle.Bytes Mettle.Runtime.Parallel

/-! ## Spans -/

section

variable {d s n head : ℕ}

/-- The bytes up to the alignment, vectors, and the bytes behind them. -/
theorem tiles_span {value : ℕ → ℕ → Value} {low : ℕ → Value} (wide : ℕ → Value) {high : ℕ → ℕ → Value} (stream : Bool)
    (hhead : head = min (mtpBytesToAlignment d) n) (hlow : ∀ i < head, low i = value i 1)
    (hwide : ∀ o, o % 16 = 0 → wide o = value (head + o) 16)
    (hhigh : ∀ o i, o % 16 = 0 → high o i = value (head + o + i) 1) :
    Tiles d value 0 n
      ((List.range head).map (fun i => ⟨false, d + i, low i⟩) ++
        whileBlocks 64
          (fun o rest =>
            ⟨stream, d + head + o, wide o⟩ :: ⟨stream, d + head + o + 16, wide (o + 16)⟩ ::
            ⟨stream, d + head + o + 32, wide (o + 32)⟩ :: ⟨stream, d + head + o + 48, wide (o + 48)⟩ :: rest)
          (whileBlocks 16 (fun o rest => ⟨stream, d + head + o, wide o⟩ :: rest)
            fun o n => (List.range n).map fun i => ⟨false, d + head + o + i, high o i⟩)
          0 (n - head)) := by
  have hle : head ≤ n := hhead ▸ min_le_right _ _
  -- a vector only where the first bytes reach the alignment
  have hvector {o k : ℕ} (ho : o % 16 = 0) (hk : o + k = n - head) (hfull : 16 ≤ k) {a : Access} {l : List Access}
      {j : ℕ} (hj : k = 16 + j) (ha : a = ⟨stream, d + head + o, wide o⟩) (hrest : Tiles d value (head + (o + 16)) j l) :
      Tiles d value (head + o) k (a :: l) := by
    subst ha hj
    refine .cons ?_ (hwide o ho) ?_ ?_
    · show d + head + o = d + (head + o)
      omega
    · intro _
      show (d + head + o) % 16 = 0
      rw [mtpBytesToAlignment] at hhead
      omega
    · rwa [Nat.add_assoc]
  have hinit : Tiles d value 0 head ((List.range head).map fun i => ⟨false, d + i, low i⟩) := by
    apply Tiles.single
    · intro i
      rfl
    · intro i hi
      rw [Nat.zero_add]
      exact hlow i hi
    · intro i
      rfl
  have hall {l : List Access} (hrest : Tiles d value head (n - head) l) :
      Tiles d value 0 n ((List.range head).map (fun i => ⟨false, d + i, low i⟩) ++ l) := by
    have h := hinit.append (k := n - head) (by rwa [Nat.zero_add])
    rwa [Nat.add_sub_of_le hle] at h
  apply hall
  refine whileBlocks_induct (P := fun o k l => o % 16 = 0 → o + k = n - head → Tiles d value (head + o) k l) (by decide)
    ?_ ?_ 0 (n - head) rfl (Nat.zero_add _)
  · intro o k rest hk hrest ho hsum
    have hlast : Tiles d value (head + (o + 48 + 16)) (k - 64) rest := hrest (by omega) (by omega)
    apply hvector ho hsum (by omega) (j := k - 16) (by omega) rfl
    apply hvector (o := o + 16) (by omega) (by omega) (by omega) (j := k - 32) (by omega) rfl
    apply hvector (o := o + 32) (by omega) (by omega) (by omega) (j := k - 48) (by omega) rfl
    exact hvector (o := o + 48) (by omega) (by omega) (by omega) (by omega) rfl hlast
  · intro o k _
    apply whileBlocks_induct (P := fun o k l => o % 16 = 0 → o + k = n - head → Tiles d value (head + o) k l) (by decide)
    · intro o k rest hk hrest ho hsum
      exact hvector ho hsum hk (by omega) rfl (hrest (by omega) (by omega))
    · intro o k _ ho _
      apply Tiles.single
      · intro i
        show d + head + o + i = d + (head + o) + i
        omega
      · intro i _
        exact hhigh o i ho
      · intro i
        rfl

/-- The bytes of the pattern from an offset on. -/
def MtpMemoryJob.repeating (job : MtpMemoryJob) (o n : ℕ) : List (BitVec 8) :=
  (List.range n).map fun i => job.pattern ((o + i) % job.period)

/-- As many bytes as asked for. -/
theorem MtpMemoryJob.length_repeating (job : MtpMemoryJob) (o n : ℕ) : (job.repeating o n).length = n := by
  rw [repeating, List.length_map, List.length_range]

/-- The repeated pattern in two parts. -/
theorem MtpMemoryJob.repeating_add (job : MtpMemoryJob) (o n k : ℕ) :
    job.repeating o (n + k) = job.repeating o n ++ job.repeating (o + n) k := by
  rw [repeating, List.range_add, List.map_append, List.map_map]
  congr 1
  apply List.map_congr_left
  intro i _
  rw [Function.comp_apply, Nat.add_assoc]

/-- A multiple of the period further the pattern is the same. -/
theorem MtpMemoryJob.repeating_period (job : MtpMemoryJob) {o p : ℕ} (n : ℕ) (h : p % job.period = 0) :
    job.repeating (o + p) n = job.repeating o n := by
  apply List.map_congr_left
  intro i _
  rw [Nat.add_right_comm, Nat.add_mod, h, Nat.add_zero, Nat.mod_mod]

/-- The sizes of an element. -/
def IsPeriod (p : ℕ) : Prop := p = 1 ∨ p = 2 ∨ p = 4 ∨ p = 8

theorem IsPeriod.and_eq {p : ℕ} (h : IsPeriod p) (i : ℕ) : i &&& (p - 1) = i % p := by
  rcases h with rfl | rfl | rfl | rfl
  · exact Nat.and_two_pow_sub_one_eq_mod i 0
  · exact Nat.and_two_pow_sub_one_eq_mod i 1
  · exact Nat.and_two_pow_sub_one_eq_mod i 2
  · exact Nat.and_two_pow_sub_one_eq_mod i 3

theorem IsPeriod.dvd {p : ℕ} (h : IsPeriod p) : p ∣ 8 := by
  rcases h with rfl | rfl | rfl | rfl <;> decide

/-- The pattern repeats with its period. -/
theorem MtpMemoryJob.patternAt_eq (job : MtpMemoryJob) (h : IsPeriod job.period) (i : ℕ) :
    job.patternAt i = job.pattern (i % job.period) := by
  rw [patternAt, h.and_eq, Nat.mod_mod_of_dvd]
  exact h.dvd.trans (by norm_num)

/-- The stores of a fill tile the span. -/
theorem tiles_mtpFillSpan (job : MtpMemoryJob) (hperiod : IsPeriod job.period) (d n : ℕ) :
    Tiles d (fun o n => .bytes (job.repeating o n)) 0 n (mtpFillSpan d n job) := by
  have h16 {o : ℕ} (ho : o % 16 = 0) : o % job.period = 0 :=
    Nat.mod_eq_zero_of_dvd ((hperiod.dvd.trans (by norm_num)).trans (Nat.dvd_of_mod_eq_zero ho))
  have hone (o : ℕ) : Value.bytes [job.patternAt o] = .bytes (job.repeating o 1) := by
    rw [job.patternAt_eq hperiod]
    rfl
  apply tiles_span _ job.stream rfl
  · intro i _
    exact hone i
  · intro o ho
    congr 1
    rw [job.repeating_period 16 (h16 ho)]
    apply List.map_congr_left
    intro i _
    exact job.patternAt_eq hperiod _
  · intro o i ho
    rw [hone]
    congr 1
    rw [Nat.add_right_comm, job.repeating_period 1 (h16 ho)]

/-- So do the loads and stores of a copy. -/
theorem tiles_mtpCopySpan (d s n : ℕ) (stream : Bool) :
    Tiles d (fun o n => .load (s + o) n) 0 n (mtpCopySpan d s n stream) := by
  apply tiles_span (fun o => .load (s + min (mtpBytesToAlignment d) n + o) 16) stream rfl
  · intro i _
    rfl
  · intro o _
    rw [Nat.add_assoc]
  · intro o i _
    rw [Nat.add_assoc s, Nat.add_assoc s]

/-! ## One thread -/

/-- A fill stores the repeated pattern. -/
theorem mtpFillSpan_eq (m : Memory) (job : MtpMemoryJob) (hperiod : IsPeriod job.period) (d n : ℕ) :
    runAccesses m (mtpFillSpan d n job) = m.store d (job.repeating 0 n) :=
  (tiles_mtpFillSpan job hperiod d n).run_bytes job.length_repeating job.repeating_add m

/-- A copy forward moves the bytes when the source is not ahead of the destination in the span. -/
theorem mtpCopySpan_eq (m : Memory) {d s n : ℕ} (stream : Bool) (h : d ≤ s ∨ s + n ≤ d) :
    runAccesses m (mtpCopySpan d s n stream) = m.move d s n :=
  (tiles_mtpCopySpan d s n stream).run_load h m

/-- The bytes from the last one to the first. -/
theorem runAccesses_down (h : s ≤ d) (n : ℕ) (m : Memory) :
    runAccesses m ((List.range n).reverse.map fun i => ⟨false, d + i, .load (s + i) 1⟩) = m.move d s n := by
  induction n generalizing m with
  | zero => rw [Memory.move_zero, List.range_zero, List.reverse_nil, List.map_nil, runAccesses_nil]
  | succ n ih =>
    rw [List.range_succ, List.reverse_append, List.reverse_singleton, List.singleton_append, List.map_cons,
      runAccesses_cons, Memory.move_backward (Or.inl h), Access.run_load rfl fun h => absurd h Bool.false_ne_true]
    congr 1
    funext m'
    exact ih m'

/-- However the regions overlap, the bytes are moved as if all were read first. -/
theorem mtpMoveOverlapping_eq (m : Memory) (d s n : ℕ) : runAccesses m (mtpMoveOverlapping d s n) = m.move d s n := by
  rw [mtpMoveOverlapping]
  by_cases hlt : d < s
  · rw [if_pos hlt]
    by_cases hfar : 16 ≤ s - d
    · rw [if_pos hfar, mtpCopySpan_eq m false (Or.inl hlt.le)]
    · rw [if_neg hfar]
      have htiles : Tiles d (fun o n => .load (s + o) n) 0 n
          ((List.range n).map fun i => ⟨false, d + i, .load (s + i) 1⟩) := by
        apply Tiles.single
        · intro i
          rfl
        · intro i _
          rw [Nat.zero_add]
        · intro i
          rfl
      exact htiles.run_load (Or.inl hlt.le) m
  · rw [if_neg hlt]
    have hle : s ≤ d := not_lt.mp hlt
    by_cases hfar : 16 ≤ d - s
    · rw [if_pos hfar]
      apply whileBack_induct (P := fun n l => ∀ m, runAccesses m l = m.move d s n) (by decide)
      · intro n rest hrest m
        rw [runAccesses_cons, Memory.move_backward (Or.inl hle), Access.run_load rfl fun h => absurd h Bool.false_ne_true]
        congr 1
        funext m'
        exact hrest m'
      · intro n _ m
        exact runAccesses_down hle n m
    · rw [if_neg hfar]
      exact runAccesses_down hle n m

end

/-! ## Several threads -/

section

variable {m : Memory} {d n : ℕ}

/-- Threads that store side by side. -/
theorem good_bytes {bytes : List (BitVec 8)} {a : Access} {p : ℕ} {b : List (BitVec 8)} (hmapped : m.Mapped d bytes.length)
    (hdest : a.dest = d + p) (hvalue : a.value = .bytes b) (halign : a.stream = true → a.dest % 16 = 0)
    (hin : p + b.length ≤ bytes.length) (hbytes : ∀ i < b.length, bytes[p + i]? = b[i]?) :
    a.Good m (m.write d bytes) := by
  have hsize : a.size = b.length := by rw [Access.size, hvalue]
  refine ⟨?_, halign, ?_, ?_⟩
  · intro i hi
    rw [hdest, Nat.add_assoc]
    exact hmapped (p + i) (by omega)
  · intro b' hb' i hi
    rw [Access.read, hvalue] at hb'
    rw [hdest, Nat.add_assoc, Memory.write_inside (by omega), hbytes i (by omega), Option.some.inj hb']
  · intro s k hload
    rw [hvalue] at hload
    cases hload

/-- Threads that move bytes from a region that is not written. -/
theorem good_load {s : ℕ} {a : Access} {p k : ℕ} (hs : m.Mapped s n) (hd : m.Mapped d n) (h : s + n ≤ d ∨ d + n ≤ s)
    (hdest : a.dest = d + p) (hvalue : a.value = .load (s + p) k) (halign : a.stream = true → a.dest % 16 = 0)
    (hin : p + k ≤ n) : a.Good m (m.moved d s n) := by
  have hsize : a.size = k := by rw [Access.size, hvalue]
  refine ⟨?_, halign, ?_, ?_⟩
  · intro i hi
    rw [hdest, Nat.add_assoc]
    exact hd (p + i) (by omega)
  · intro b hb i hi
    rw [Access.read, hvalue] at hb
    rw [hsize] at hi
    rw [hdest, Memory.moved, if_pos (by omega), ← Memory.load_get hb hi]
    congr 1
    omega
  · intro s' k' hload i hi
    rw [hvalue] at hload
    obtain ⟨rfl, rfl⟩ := Value.load.inj hload
    refine ⟨?_, ?_⟩
    · rw [Memory.moved, if_neg (by omega)]
    · rw [Nat.add_assoc]
      exact hs (p + i) (by omega)

end

/-- However the threads take their steps, none faults; when all of them have finished, as they have after enough turns,
the memory is the final one. -/
def Yields (m final : Memory) (calls : List (List Access)) : Prop :=
  ∀ schedule, ∃ now ts, runThreads m (calls.map Thread.start) schedule = some (now, ts) ∧
    ((∀ t ∈ ts, t.Finished) → now = final) ∧
    ((∀ i l, calls[i]? = some l → 2 * l.length ≤ schedule.count i) → ∀ t ∈ ts, t.Finished)

/-- Calls that only write what is to be there in the end, and together all of it, yield it in every order. -/
theorem yields_of_good {m final : Memory} {calls : List (List Access)} (hgood : ∀ l ∈ calls, ∀ a ∈ l, a.Good m final)
    (howed : ∀ z, m z = final z ∨ ∃ l ∈ calls, ∃ a ∈ l, a.dest ≤ z ∧ z < a.dest + a.size) : Yields m final calls := by
  intro schedule
  obtain ⟨now, ts, hrun, hend⟩ := (Progress.start hgood howed).run schedule
  exact ⟨now, ts, hrun, hend.finished, finished_of_turns hrun⟩

theorem yields_nil (m : Memory) : Yields m m [] :=
  yields_of_good (fun _ hl => absurd hl List.not_mem_nil) fun _ => Or.inl rfl

/-- One call yields what it does. -/
theorem yields_single {m final : Memory} {l : List Access} (h : runAccesses m l = some final) : Yields m final [l] := by
  intro schedule
  obtain ⟨now, t, hrun, hend⟩ := runThreads_single (t := Thread.start l) h schedule
  exact ⟨now, [t], hrun, fun hall => hend (hall t (.head _)), finished_of_turns hrun⟩

/-! ## The ranges of the calls -/

/-- A range that a memory can hold is cut without an overflow. -/
theorem rangeCalls_of_lt (requested hardware : ℕ) (acquired : Bool) (total minChunk : ℤ) (htotal : 0 < total)
    (hlt : total < 2 ^ 62) (hchunk : 0 ≤ minChunk) (hchunk' : minChunk < 2 ^ 62) :
    ∃ ranges, rangeCalls (mtpThreads requested hardware) acquired 0 total minChunk = some ranges ∧ Cuts 0 total ranges := by
  have hint {x : ℤ} (hx : 0 ≤ x) (hx' : x < 2 ^ 62) : (BitVec.ofInt 64 x).toInt = x := by
    rw [BitVec.toInt_ofInt, Int.bmod_eq_of_le (by omega) (by omega)]
  have h := rangeCalls_cuts_iff requested hardware acquired 0#64 (BitVec.ofInt 64 total) (BitVec.ofInt 64 minChunk)
  rw [hint htotal.le hlt, hint hchunk hchunk', BitVec.toInt_zero] at h
  rw [h, RangeFits, Int.sub_zero]
  refine ⟨⟨by omega, by omega⟩, ?_⟩
  intro hcount
  have hplan := planned htotal hcount
  have hle := hplan.count_le
  have hspan := hplan.span_lt
  have hlast := hplan.last
  refine ⟨by omega, by omega, ?_⟩
  intro _
  omega

/-! ## Filling -/

/-- The size of an element that `mettle_parallel_fill` fills with. -/
def elementBytes (elementSize : BitVec 32) : ℕ :=
  if elementSize = 2#32 then 2 else if elementSize = 4#32 then 4 else if elementSize = 8#32 then 8 else 1

theorem isPeriod_elementBytes (elementSize : BitVec 32) : IsPeriod (elementBytes elementSize) := by
  rw [elementBytes, IsPeriod]
  split_ifs <;> decide

/-- The size that the code works with. -/
theorem elementBytes_eq (elementSize : BitVec 32) :
    (if elementSize = 2#32 ∨ elementSize = 4#32 ∨ elementSize = 8#32 then elementSize.toNat else 1) =
      elementBytes elementSize := by
  rw [elementBytes]
  by_cases h2 : elementSize = 2#32
  · rw [if_pos (Or.inl h2), if_pos h2, h2]
    rfl
  · by_cases h4 : elementSize = 4#32
    · rw [if_pos (Or.inr (Or.inl h4)), if_neg h2, if_pos h4, h4]
      rfl
    · by_cases h8 : elementSize = 8#32
      · rw [if_pos (Or.inr (Or.inr h8)), if_neg h2, if_neg h4, if_pos h8, h8]
        rfl
      · rw [if_neg (by tauto), if_neg h2, if_neg h4, if_neg h8]

/-- A number of elements, each of them the lowest bytes of the value, the least significant first. -/
def elements (period : ℕ) (value : BitVec 64) (count : ℕ) : List (BitVec 8) :=
  (List.replicate count (leBytes period value.toNat)).flatten

/-- The bytes of a number, one by one. -/
theorem leBytes_eq_map (n v : ℕ) : leBytes n v = (List.range n).map fun i => BitVec.ofNat 8 (v / 256 ^ i) := by
  induction n generalizing v with
  | zero => rfl
  | succ n ih =>
    rw [leBytes, ih, List.range_succ_eq_map, List.map_cons, List.map_map, pow_zero, Nat.div_one]
    congr 1
    apply List.map_congr_left
    intro i _
    rw [Function.comp_apply, Nat.div_div_eq_div_mul, pow_succ']

/-- The pattern of a job holds the bytes of the value. -/
theorem repeating_eq_elements {job : MtpMemoryJob} {value : BitVec 64} (hperiod : IsPeriod job.period)
    (hpattern : ∀ i, job.pattern i = (value.sshiftRight (8 * (i &&& (job.period - 1)))).setWidth 8) (count : ℕ) :
    job.repeating 0 (count * job.period) = elements job.period value count := by
  have hle : job.period ≤ 8 := Nat.le_of_dvd (by decide) hperiod.dvd
  have hbyte {i : ℕ} (hi : i < job.period) :
      (value.sshiftRight (8 * (i &&& (job.period - 1)))).setWidth 8 = BitVec.ofNat 8 (value.toNat / 256 ^ i) := by
    have hpow : 256 ^ i = 2 ^ (8 * i) := by rw [pow_mul]; rfl
    rw [hperiod.and_eq, Nat.mod_eq_of_lt hi, hpow]
    apply BitVec.eq_of_getLsbD_eq
    intro j hj
    rw [BitVec.getLsbD_setWidth, BitVec.getLsbD_sshiftRight, BitVec.getLsbD_ofNat, Nat.testBit_div_two_pow,
      if_pos (by omega), decide_eq_true hj, decide_eq_false (by omega), Bool.not_false, Bool.true_and, Bool.true_and,
      Bool.true_and, BitVec.getLsbD, Nat.add_comm]
  induction count with
  | zero => rw [Nat.zero_mul, elements]; rfl
  | succ count ih =>
    rw [Nat.succ_mul, job.repeating_add, ih, elements, elements, List.replicate_succ', List.flatten_append,
      List.flatten_singleton]
    congr 1
    rw [leBytes_eq_map, MtpMemoryJob.repeating]
    apply List.map_congr_left
    intro i hi
    have hi' := List.mem_range.mp hi
    rw [Nat.zero_add, Nat.mul_comm, Nat.mul_add_mod, Nat.mod_eq_of_lt hi', hpattern, hbyte hi']

/-- A loop all of whose rounds succeed. -/
theorem mapM_some {α β : Type} {f : α → Option β} {g : α → β} {l : List α} (h : ∀ a ∈ l, f a = some (g a)) :
    l.mapM f = some (l.map g) := by
  induction l with
  | nil => rfl
  | cons a l ih =>
    rw [List.mapM_cons, h a List.mem_cons_self, ih fun b hb => h b (List.mem_cons_of_mem a hb)]
    rfl

variable {ranges : List (ℤ × ℤ)} {destination source : ℕ}

/-- The calls for the ranges of a fill store all of it. -/
theorem yields_fill {m : Memory} (job : MtpMemoryJob) (hperiod : IsPeriod job.period) {count : ℤ}
    (hcuts : Cuts 0 count ranges) (hmapped : m.Mapped job.destination (count.toNat * job.period)) :
    Yields m (m.write job.destination (job.repeating 0 (count.toNat * job.period)))
      (ranges.map fun r => mtpFillSpan (job.destination + r.1.toNat * job.period)
        ((r.2.toNat - r.1.toNat) * job.period) job) := by
  have hpos : 0 < job.period := Nat.pos_of_dvd_of_pos hperiod.dvd (by decide)
  have hlen : (job.repeating 0 (count.toNat * job.period)).length = count.toNat * job.period := job.length_repeating _ _
  have hend {r : ℤ × ℤ} (hr : r ∈ ranges) :
      r.1.toNat * job.period + (r.2.toNat - r.1.toNat) * job.period ≤ count.toNat * job.period := by
    obtain ⟨hlow, hlt, hhigh⟩ := hcuts.bounds hr
    rw [← Nat.add_mul]
    apply Nat.mul_le_mul_right
    omega
  apply yields_of_good
  · intro l hl a ha
    obtain ⟨r, hr, rfl⟩ := List.mem_map.mp hl
    obtain ⟨q, k, -, hk, hdest, hvalue, halign⟩ := (tiles_mtpFillSpan job hperiod _ _).inside a ha
    have hle := hend hr
    have hsize := job.length_repeating q k
    rw [Nat.add_assoc] at hdest
    apply good_bytes (by rwa [hlen]) hdest hvalue halign
    · rw [hlen, hsize]
      omega
    · intro i hi
      rw [hsize] at hi
      rw [MtpMemoryJob.repeating, MtpMemoryJob.repeating, List.getElem?_map, List.getElem?_map,
        List.getElem?_range (by omega), List.getElem?_range hi, Option.map_some, Option.map_some, Nat.zero_add,
        Nat.add_assoc, Nat.mul_comm, Nat.mul_add_mod]
  · intro z
    by_cases hin : job.destination ≤ z ∧ z < job.destination + count.toNat * job.period
    · right
      -- the range of the element that the byte is in
      have hdiv : (z - job.destination) / job.period < count.toNat := Nat.div_lt_of_lt_mul (by rw [Nat.mul_comm]; omega)
      have hmod := Nat.div_add_mod (z - job.destination) job.period
      have hmodlt := Nat.mod_lt (z - job.destination) hpos
      generalize (z - job.destination) / job.period = x at hmod hdiv
      obtain ⟨r, hr, hlow, hhigh⟩ := (hcuts.covers x).mpr ⟨by omega, by omega⟩
      refine ⟨_, List.mem_map_of_mem hr, ?_⟩
      have hfrom : r.1.toNat * job.period ≤ x * job.period := Nat.mul_le_mul_right _ (by omega)
      have hto : (x + 1) * job.period ≤ r.2.toNat * job.period := Nat.mul_le_mul_right _ (by omega)
      have hsum : r.1.toNat * job.period + (r.2.toNat - r.1.toNat) * job.period = r.2.toNat * job.period := by
        rw [← Nat.add_mul, Nat.add_sub_of_le (by omega)]
      rw [Nat.add_mul, Nat.one_mul] at hto
      rw [Nat.mul_comm] at hmod
      apply (tiles_mtpFillSpan job hperiod _ _).covers
      · intro a _ p k hvalue
        rw [Access.size, hvalue]
        exact job.length_repeating p k
      · omega
      · omega
    · left
      rw [Memory.write_outside]
      omega

/-- The memory of a process on the machines of the runtime: no address from `2 ^ 62` on is mapped. -/
abbrev ProcessMemory : Type := { m : Memory // ∀ a, 2 ^ 62 ≤ a → m a = none }

/-- What is mapped is below `2 ^ 62`. -/
theorem mapped_lt (m : ProcessMemory) {a n : ℕ} (hn : 0 < n) (h : m.1.Mapped a n) : a + n ≤ 2 ^ 62 := by
  by_contra hlt
  have hlast := h (n - 1) (by omega)
  rw [m.2 (a + (n - 1)) (by omega)] at hlast
  cases hlast

/-- A parallel fill yields the elements, on any number of threads and in any order. -/
theorem mettleParallelFill_yields (m : ProcessMemory) (requested hardware : ℕ) (acquired : Bool)
    (count value : BitVec 64) (elementSize : BitVec 32) (hdest : destination ≠ 0)
    (hmapped : m.1.Mapped destination (count.toInt.toNat * elementBytes elementSize)) :
    ∃ calls, mettleParallelFill (mtpThreads requested hardware) acquired destination count value elementSize = some calls ∧
      Yields m.1 (m.1.write destination (elements (elementBytes elementSize) value count.toInt.toNat)) calls := by
  have hperiod := isPeriod_elementBytes elementSize
  have hpos : 0 < elementBytes elementSize := Nat.pos_of_dvd_of_pos hperiod.dvd (by decide)
  have hle : elementBytes elementSize ≤ 8 := Nat.le_of_dvd (by decide) hperiod.dvd
  rw [mettleParallelFill, elementBytes_eq]
  generalize elementBytes elementSize = period at hmapped hperiod hpos hle ⊢
  generalize count.toInt = count at hmapped ⊢
  -- nothing to fill, or at least one element, and then every range stays inside the mapped bytes
  by_cases hcount : count ≤ 0
  · refine ⟨[], if_pos (Or.inr hcount), ?_⟩
    rw [Int.toNat_of_nonpos hcount, elements, List.replicate_zero, List.flatten_nil, Memory.write_nil]
    exact yields_nil m.1
  · have hbytes : 0 < count.toNat * period := Nat.mul_pos (by omega) hpos
    have hlimit := mapped_lt m hbytes hmapped
    have hcast : ((count.toNat * period : ℕ) : ℤ) = count * period := by
      rw [Nat.cast_mul, Int.toNat_of_nonneg (by omega)]
    have hmono : count * 1 ≤ count * period := Int.mul_le_mul_of_nonneg_left (by exact_mod_cast hpos) (by omega)
    have hlong {x : ℤ} (hx : 0 ≤ x) (hx' : x ≤ count * period) : long x = some x := by
      rw [long, if_pos]
      constructor
      · omega
      · omega
    obtain ⟨ranges, hranges, hcuts⟩ := rangeCalls_of_lt requested hardware acquired count
      (memoryChunkBytes / period) (by omega) (by omega) (Int.ediv_nonneg (by decide) (by omega))
      (lt_of_le_of_lt (Int.ediv_le_self _ (by decide)) (by decide))
    rw [if_neg (not_or.mpr ⟨hdest, hcount⟩), hlong (by omega) le_rfl, Option.bind_eq_bind, Option.bind_some, hranges,
      Option.bind_eq_bind, Option.bind_some]
    refine ⟨_, mapM_some (g := fun r => mtpFillSpan (destination + r.1.toNat * period) ((r.2.toNat - r.1.toNat) * period)
      (fillJob destination period value (count * period))) ?_, ?_⟩
    · intro r hr
      obtain ⟨hlow, hlt, hhigh⟩ := hcuts.bounds hr
      have hoffset : r.1 * (period : ℤ) ≤ count * period := Int.mul_le_mul_of_nonneg_right (by omega) (by omega)
      have hspan : (r.2 - r.1) * (period : ℤ) ≤ count * period := Int.mul_le_mul_of_nonneg_right (by omega) (by omega)
      have hoffset' : 0 ≤ r.1 * (period : ℤ) := Int.mul_nonneg hlow (by omega)
      have hspan' : 0 ≤ (r.2 - r.1) * (period : ℤ) := Int.mul_nonneg (by omega) (by omega)
      have htoNat : (r.1 * (period : ℤ)).toNat = r.1.toNat * period := Int.toNat_mul hlow (by omega)
      have htoNat' : ((r.2 - r.1) * (period : ℤ)).toNat = (r.2.toNat - r.1.toNat) * period := by
        have hsub : (r.2 - r.1).toNat = r.2.toNat - r.1.toNat := by omega
        rw [Int.toNat_mul (by omega) (by omega), hsub]
        rfl
      show (long (r.1 * (period : ℤ))).bind _ = _
      rw [hlong hoffset' hoffset, Option.bind_some]
      show (long ((r.2 - r.1) * (period : ℤ))).bind _ = _
      rw [hlong hspan' hspan, Option.bind_some, htoNat, htoNat']
      rfl
    · have hfill := yields_fill (fillJob destination period value (count * period)) hperiod hcuts hmapped
      rw [repeating_eq_elements hperiod fun _ => rfl] at hfill
      exact hfill

/-! ## Copying -/

/-- The calls for the ranges of a copy move all of it. -/
theorem yields_copy {m : Memory} {bytes : ℤ} (stream : Bool) (hcuts : Cuts 0 bytes ranges)
    (hs : m.Mapped source bytes.toNat) (hd : m.Mapped destination bytes.toNat)
    (h : source + bytes.toNat ≤ destination ∨ destination + bytes.toNat ≤ source) :
    Yields m (m.moved destination source bytes.toNat)
      (ranges.map fun r => mtpCopySpan (destination + r.1.toNat) (source + r.1.toNat) (r.2 - r.1).toNat stream) := by
  apply yields_of_good
  · intro l hl a ha
    obtain ⟨r, hr, rfl⟩ := List.mem_map.mp hl
    obtain ⟨q, k, -, hk, hdest, hvalue, halign⟩ := (tiles_mtpCopySpan _ _ _ stream).inside a ha
    obtain ⟨hlow, hlt, hhigh⟩ := hcuts.bounds hr
    rw [Nat.add_assoc] at hdest hvalue
    exact good_load hs hd h hdest hvalue halign (by omega)
  · intro z
    by_cases hin : destination ≤ z ∧ z < destination + bytes.toNat
    · right
      obtain ⟨r, hr, hlow, hhigh⟩ := (hcuts.covers (z - destination : ℕ)).mpr ⟨by omega, by omega⟩
      refine ⟨_, List.mem_map_of_mem hr, ?_⟩
      apply (tiles_mtpCopySpan _ _ _ stream).covers
      · intro a _ p k hvalue
        rw [Access.size, hvalue]
      · omega
      · omega
    · left
      rw [Memory.moved, if_neg hin]

/-- A parallel copy yields the moved bytes, overlapping or not. -/
theorem mettleParallelCopyBytes_yields (m : ProcessMemory) (requested hardware : ℕ) (acquired : Bool)
    (bytes : BitVec 64) (hdest : destination ≠ 0) (hsource : source ≠ 0) (hs : m.1.Mapped source bytes.toInt.toNat)
    (hd : m.1.Mapped destination bytes.toInt.toNat) :
    ∃ calls, mettleParallelCopyBytes (mtpThreads requested hardware) acquired destination source bytes = some calls ∧
      Yields m.1 (m.1.moved destination source bytes.toInt.toNat) calls := by
  rw [mettleParallelCopyBytes]
  have htoNat (hpos : 0 < bytes.toInt) : bytes.toNat = bytes.toInt.toNat := by
    rw [BitVec.toInt_eq_toNat_cond] at hpos ⊢
    omega
  by_cases hnone : destination = 0 ∨ source = 0 ∨ bytes.toInt ≤ 0 ∨ destination = source
  · refine ⟨[], if_pos hnone, ?_⟩
    have hsame : m.1.moved destination source bytes.toInt.toNat = m.1 := by
      funext z
      rw [Memory.moved]
      by_cases hin : destination ≤ z ∧ z < destination + bytes.toInt.toNat
      · have heq : destination = source := by
          refine ((hnone.resolve_left hdest).resolve_left hsource).resolve_left fun hle => ?_
          omega
        rw [if_pos hin, heq, Nat.add_sub_of_le (heq ▸ hin.1)]
      · rw [if_neg hin]
    rw [hsame]
    exact yields_nil m.1
  · obtain ⟨-, -, hpos, -⟩ : destination ≠ 0 ∧ source ≠ 0 ∧ 0 < bytes.toInt ∧ destination ≠ source := by
      refine ⟨hdest, hsource, ?_, ?_⟩ <;> omega
    rw [if_neg hnone, htoNat hpos]
    -- overlapping ranges go through the one move, others are cut into chunks
    by_cases hoverlap : destination < source + bytes.toInt.toNat ∧ source < destination + bytes.toInt.toNat
    · rw [if_pos hoverlap]
      refine ⟨_, rfl, yields_single ?_⟩
      rw [mtpMoveOverlapping_eq]
      exact Memory.move_eq_some_iff.mpr ⟨hs, hd, rfl⟩
    · have hlimit := mapped_lt m (by omega) hd
      obtain ⟨ranges, hranges, hcuts⟩ := rangeCalls_of_lt requested hardware acquired bytes.toInt
        memoryChunkBytes hpos (by omega) (by decide) (by decide)
      rw [if_neg hoverlap, hranges, Option.bind_eq_bind, Option.bind_some]
      exact ⟨_, rfl, yields_copy _ hcuts hs hd (by omega)⟩

end Mettle.Runtime

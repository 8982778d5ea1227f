import Mettle.Runtime.FreestandingStrings
import Mettle.Runtime.Spans

/-!
# Memory and string routines, byte by byte

What the word-at-a-time routines do, in terms of single bytes. A memory may have any bytes at any addresses, so that a
result also says what the routine does not read: on the bytes that it needs, up to the end of the words that hold the
last ones, it does not fault.
-/

namespace Mettle.Runtime

open Mettle.Lib Mettle.Runtime.Parallel

/-- What `memset` to `memcmp` do. -/
structure MemoryRoutines : Prop where
  memset_fills : ∀ (m : Memory) (destination : ℕ) (value : BitVec 32) (count : ℕ), m.Mapped destination count →
    memset m destination value count =
      some (destination, m.write destination (List.replicate count (value.setWidth 8)))
  memcpy_copies : ∀ (m : Memory) (destination source count : ℕ), m.Mapped source count → m.Mapped destination count →
    source + count ≤ destination ∨ destination + count ≤ source →
    memcpy m destination source count = some (destination, m.moved destination source count)
  memmove_moves : ∀ (m : Memory) (destination source count : ℕ), m.Mapped source count → m.Mapped destination count →
    memmove m destination source count = some (destination, m.moved destination source count)
  memchr_absent : ∀ (m : Memory) (memory : ℕ) (character : BitVec 32) (count : ℕ),
    Absent m (character.setWidth 8) memory count → memchr m memory character count = some none
  memchr_first : ∀ (m : Memory) (memory : ℕ) (character : BitVec 32) (count i : ℕ), i < count →
    m (memory + i) = some (character.setWidth 8) → Absent m (character.setWidth 8) memory i →
    m.Mapped memory (min count (i / 8 * 8 + 8)) → memchr m memory character count = some (some (memory + i))
  memcmp_same : ∀ (m : Memory) (left right count : ℕ), Same m left right count → memcmp m left right count = some 0
  memcmp_differ : ∀ (m : Memory) (left right count i : ℕ) (x y : BitVec 8), i < count → m (left + i) = some x →
    m (right + i) = some y → x ≠ y → Same m left right i → m.Mapped left (min count (i / 8 * 8 + 8)) →
    m.Mapped right (min count (i / 8 * 8 + 8)) → memcmp m left right count = some ((x.toNat : ℤ) - (y.toNat : ℤ))
  /-- Nothing but the destination is written. -/
  write_frame : ∀ (m : Memory) (a : ℕ) (bytes : List (BitVec 8)) (z : ℕ), z < a ∨ a + bytes.length ≤ z →
    m.write a bytes z = m z
  moved_frame : ∀ (m : Memory) (d s n z : ℕ), z < d ∨ d + n ≤ z → m.moved d s n z = m z

/-- What `strlen` to `strstr` do, given more fuel than the strings have bytes, on strings that are mapped up to the end of
the word of their last byte that matters. -/
structure StringRoutines : Prop where
  strlen_null : ∀ (m : Memory) (fuel : ℕ), strlen fuel m 0 = some 0
  strlen_counts : ∀ (m : Memory) (text n fuel : ℕ), text ≠ 0 → Absent m 0#8 text n → m (text + n) = some 0#8 →
    MappedToWord m text (text + n) → n < fuel → strlen fuel m text = some n
  strcmp_compares : ∀ (m : Memory) (left right i fuel : ℕ) (x y : BitVec 8), Same m left right i → Absent m 0#8 left i →
    m (left + i) = some x → m (right + i) = some y → x ≠ y ∨ x = 0#8 → MappedToWord m left (left + i) →
    MappedToWord m right (right + i) → i < fuel → strcmp fuel m left right = some ((x.toNat : ℤ) - (y.toNat : ℤ))
  strchr_finds : ∀ (m : Memory) (text i fuel : ℕ) (character : BitVec 32) (b : BitVec 8),
    Absent m (character.setWidth 8) text i → Absent m 0#8 text i → m (text + i) = some b →
    b = character.setWidth 8 ∨ b = 0#8 → MappedToWord m text (text + i) → i < fuel →
    strchr fuel m text character = some (if b = character.setWidth 8 then some (text + i) else none)
  strstr_finds : ∀ (m : Memory) (text n part k fuel : ℕ) (found : Option ℕ), Absent m 0#8 text n →
    m (text + n) = some 0#8 → MappedToWord m text (text + n) → Absent m 0#8 part k → m (part + k) = some 0#8 →
    MappedToWord m part (part + k) → FirstOccurrence m text n part k found → n < fuel → k ≤ fuel →
    strstr fuel m text part = some (found.map (text + ·))

/-- What the spans and the parallel routines do, whatever the number of threads, whether or not the pool is free, and
however the threads take their steps. -/
structure ParallelRoutines : Prop where
  mtpFillSpan_fills : ∀ (m : Memory) (job : MtpMemoryJob) (d n : ℕ), IsPeriod job.period → m.Mapped d n →
    runAccesses m (mtpFillSpan d n job) = some (m.write d (job.repeating 0 n))
  mtpCopySpan_copies : ∀ (m : Memory) (d s n : ℕ) (stream : Bool), m.Mapped s n → m.Mapped d n →
    s + n ≤ d ∨ d + n ≤ s → runAccesses m (mtpCopySpan d s n stream) = some (m.moved d s n)
  mtpMoveOverlapping_moves : ∀ (m : Memory) (d s n : ℕ), m.Mapped s n → m.Mapped d n →
    runAccesses m (mtpMoveOverlapping d s n) = some (m.moved d s n)
  mettleParallelFill_fills : ∀ (m : ProcessMemory) (requested hardware : ℕ) (acquired : Bool) (destination : ℕ)
    (count value : BitVec 64) (elementSize : BitVec 32), destination ≠ 0 →
    m.1.Mapped destination (count.toInt.toNat * elementBytes elementSize) →
    ∃ calls, mettleParallelFill (mtpThreads requested hardware) acquired destination count value elementSize = some calls ∧
      Yields m.1 (m.1.write destination (elements (elementBytes elementSize) value count.toInt.toNat)) calls
  mettleParallelFill_null : ∀ (requested hardware : ℕ) (acquired : Bool) (count value : BitVec 64)
    (elementSize : BitVec 32),
    mettleParallelFill (mtpThreads requested hardware) acquired 0 count value elementSize = some []
  mettleParallelCopyBytes_copies : ∀ (m : ProcessMemory) (requested hardware : ℕ) (acquired : Bool)
    (destination source : ℕ) (bytes : BitVec 64), destination ≠ 0 → source ≠ 0 →
    m.1.Mapped source bytes.toInt.toNat → m.1.Mapped destination bytes.toInt.toNat →
    ∃ calls, mettleParallelCopyBytes (mtpThreads requested hardware) acquired destination source bytes = some calls ∧
      Yields m.1 (m.1.moved destination source bytes.toInt.toNat) calls
  mettleParallelCopyBytes_null : ∀ (requested hardware : ℕ) (acquired : Bool) (destination source : ℕ) (bytes : BitVec 64),
    destination = 0 ∨ source = 0 →
    mettleParallelCopyBytes (mtpThreads requested hardware) acquired destination source bytes = some []

theorem memoryRoutines : MemoryRoutines where
  memset_fills _ _ _ _ h := by
    rw [memset_eq, Memory.Mapped.store (by rwa [List.length_replicate])]
    rfl
  memcpy_copies m _ _ _ hs hd h := by
    rw [memcpy_eq m (by omega), Memory.move_eq_some_iff.mpr ⟨hs, hd, rfl⟩]
    rfl
  memmove_moves _ _ _ _ hs hd := memmove_eq (Memory.move_eq_some_iff.mpr ⟨hs, hd, rfl⟩)
  memchr_absent _ _ _ _ h := memchr_absent h
  memchr_first _ _ _ _ _ hi hc h hmapped := memchr_first hi hc h hmapped
  memcmp_same _ _ _ _ h := memcmp_same h
  memcmp_differ _ _ _ _ _ _ _ hi hx hy hne h hleft hright := memcmp_differ hi hx hy hne h hleft hright
  write_frame _ _ _ _ h := Memory.write_outside h
  moved_frame _ _ _ _ _ h := by
    rw [Memory.moved, if_neg (by omega)]

theorem stringRoutines : StringRoutines where
  strlen_null m fuel := strlen_null fuel m
  strlen_counts _ _ _ _ htext h hend hmapped hfuel := strlen_eq htext h hend hmapped hfuel
  strcmp_compares _ _ _ _ _ _ _ hsame hnone hx hy hstop hleft hright hfuel :=
    strcmp_eq hsame hnone hx hy hstop hleft hright hfuel
  strchr_finds _ _ _ _ _ _ hwanted hnone hb hstop hmapped hfuel :=
    strchr_eq _ _ hwanted hnone hb hstop hmapped hfuel
  strstr_finds _ _ _ _ _ _ _ htext hend hmapped hpart hpartEnd hpartMapped hfound hfuel hpartFuel :=
    strstr_eq htext hend hmapped hpart hpartEnd hpartMapped hfound hfuel hpartFuel

theorem parallelRoutines : ParallelRoutines where
  mtpFillSpan_fills m job _ _ hperiod h := by
    rw [mtpFillSpan_eq m job hperiod, Memory.Mapped.store (by rwa [job.length_repeating])]
  mtpCopySpan_copies m _ _ _ stream hs hd h := by
    rw [mtpCopySpan_eq m stream (by omega)]
    exact Memory.move_eq_some_iff.mpr ⟨hs, hd, rfl⟩
  mtpMoveOverlapping_moves _ _ _ _ hs hd := by
    rw [mtpMoveOverlapping_eq]
    exact Memory.move_eq_some_iff.mpr ⟨hs, hd, rfl⟩
  mettleParallelFill_fills m requested hardware acquired _ count value elementSize hdest hmapped :=
    mettleParallelFill_yields m requested hardware acquired count value elementSize hdest hmapped
  mettleParallelFill_null _ _ _ _ _ _ := by
    rw [mettleParallelFill]
    exact if_pos (Or.inl rfl)
  mettleParallelCopyBytes_copies m requested hardware acquired _ _ bytes hdest hsource hs hd :=
    mettleParallelCopyBytes_yields m requested hardware acquired bytes hdest hsource hs hd
  mettleParallelCopyBytes_null _ _ _ _ _ _ h :=
    if_pos (h.imp_right Or.inl)

/-- The word-at-a-time routines do what their byte-wise definitions do. -/
theorem routines_bytewise : MemoryRoutines ∧ StringRoutines ∧ ParallelRoutines :=
  ⟨memoryRoutines, stringRoutines, parallelRoutines⟩

end Mettle.Runtime

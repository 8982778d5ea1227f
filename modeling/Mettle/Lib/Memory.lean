import Mettle.Lib.Bytes

/-!
# A memory of bytes

Addresses that may be mapped or not. Loads and stores of several bytes have a result when all of the bytes are mapped.
Moving bytes is loading all of them and then storing them; a move in pieces is the same when no piece reads what an
earlier one has written.
-/

namespace Mettle.Lib

open Mettle.Bytes List Option

/-- The bytes at the addresses that are mapped. -/
abbrev Memory : Type := ℕ → Option (BitVec 8)

namespace Memory

/-- The bytes from an address on. -/
def load (m : Memory) (a : ℕ) : ℕ → Option (List (BitVec 8))
  | 0 => some []
  | n + 1 => (m a).bind fun b => (load m (a + 1) n).map (b :: ·)

/-- The memory with some bytes replaced. -/
def write (m : Memory) (a : ℕ) (bytes : List (BitVec 8)) : Memory := fun x =>
  if a ≤ x ∧ x < a + bytes.length then bytes[x - a]? else m x

/-- A store to addresses that can be loaded. -/
def store (m : Memory) (a : ℕ) (bytes : List (BitVec 8)) : Option Memory :=
  (m.load a bytes.length).map fun _ => m.write a bytes

/-- Bytes moved from `s` to `d`. -/
def move (m : Memory) (d s n : ℕ) : Option Memory := (m.load s n).bind (m.store d)

/-- All bytes of a range are mapped. -/
def Mapped (m : Memory) (a n : ℕ) : Prop := ∀ i < n, (m (a + i)).isSome = true

variable {m : Memory} {a b d s n k : ℕ} {x y bytes : List (BitVec 8)}

/-- What is loaded are the bytes at the addresses. -/
theorem load_eq_some_iff : m.load a n = some bytes ↔ bytes.length = n ∧ ∀ i < n, m (a + i) = bytes[i]? := by
  induction n generalizing a bytes with
  | zero =>
    rw [load, some.injEq, length_eq_zero_iff]
    constructor
    · rintro rfl
      exact ⟨rfl, fun i hi => absurd hi (Nat.not_lt_zero i)⟩
    · rintro ⟨rfl, -⟩
      rfl
  | succ n ih =>
    rw [load, bind_eq_some_iff]
    constructor
    · rintro ⟨c, hc, h⟩
      rw [map_eq_some_iff] at h
      obtain ⟨rest, hrest, rfl⟩ := h
      obtain ⟨hlen, hall⟩ := ih.mp hrest
      refine ⟨by rw [length_cons, hlen], ?_⟩
      intro i hi
      cases i with
      | zero => exact hc
      | succ i =>
        rw [← Nat.add_assoc, Nat.add_right_comm]
        exact hall i (Nat.lt_of_succ_lt_succ hi)
    · rintro ⟨hlen, hall⟩
      cases bytes with
      | nil => cases hlen
      | cons c rest =>
        refine ⟨c, hall 0 (Nat.succ_pos n), ?_⟩
        rw [map_eq_some_iff]
        refine ⟨rest, ih.mpr ⟨Nat.succ.inj hlen, ?_⟩, rfl⟩
        intro i hi
        have hnext := hall (i + 1) (Nat.succ_lt_succ hi)
        rw [← Nat.add_assoc, Nat.add_right_comm] at hnext
        exact hnext

theorem load_length (h : m.load a n = some bytes) : bytes.length = n := (load_eq_some_iff.mp h).1

/-- Each byte of a load is that at its address. -/
theorem load_get (h : m.load a n = some bytes) {i : ℕ} (hi : i < n) : m (a + i) = bytes[i]? :=
  (load_eq_some_iff.mp h).2 i hi

/-- A load sees only its own addresses. -/
theorem load_congr {m' : Memory} (h : ∀ i < n, m' (a + i) = m (a + i)) : m'.load a n = m.load a n := by
  apply ext
  intro bytes
  rw [load_eq_some_iff, load_eq_some_iff]
  exact and_congr_right fun _ => forall₂_congr fun i hi => by rw [h i hi]

/-- A long load is two loads. -/
theorem load_add (m : Memory) (a n k : ℕ) :
    m.load a (n + k) = (m.load a n).bind fun x => (m.load (a + n) k).map (x ++ ·) := by
  induction n generalizing a with
  | zero => simp [load]
  | succ n ih =>
    rw [Nat.add_right_comm, load, load, ih, bind_assoc]
    congr 1
    funext c
    rw [Nat.add_assoc, Nat.add_comm 1, Option.map_bind, bind_map]
    congr 1
    funext x
    rw [Function.comp_apply, Function.comp_apply, Option.map_map]
    rfl

/-- A load succeeds where the memory is mapped. -/
theorem isSome_load : (m.load a n).isSome = true ↔ m.Mapped a n := by
  induction n generalizing a with
  | zero => exact iff_of_true rfl fun i hi => absurd hi (Nat.not_lt_zero i)
  | succ n ih =>
    have hsplit : (m.load a (n + 1)).isSome = true ↔ (m a).isSome = true ∧ (m.load (a + 1) n).isSome = true := by
      rw [load]
      cases m a with
      | none => simp
      | some c => simp
    rw [hsplit, ih]
    constructor
    · rintro ⟨hfirst, hrest⟩ i hi
      cases i with
      | zero => exact hfirst
      | succ i =>
        have hi' := hrest i (Nat.lt_of_succ_lt_succ hi)
        rwa [Nat.add_assoc, Nat.add_comm 1] at hi'
    · intro h
      refine ⟨h 0 (Nat.succ_pos n), ?_⟩
      intro i hi
      have hi' := h (i + 1) (Nat.succ_lt_succ hi)
      rwa [Nat.add_assoc, Nat.add_comm 1]

/-- What is mapped can be loaded. -/
theorem Mapped.load (h : m.Mapped a n) : ∃ bytes, m.load a n = some bytes := isSome_iff_exists.mp (isSome_load.mpr h)

/-! ## Writes -/

theorem write_inside {i : ℕ} (hi : i < x.length) : m.write a x (a + i) = x[i]? := by
  rw [write, if_pos (by omega), Nat.add_sub_cancel_left]

theorem write_outside {z : ℕ} (h : z < a ∨ a + x.length ≤ z) : m.write a x z = m z := by
  rw [write, if_neg (by omega)]

theorem write_nil : m.write a [] = m := by
  funext z
  exact write_outside (by rw [length_nil]; omega)

theorem write_append : m.write a (x ++ y) = (m.write a x).write (a + x.length) y := by
  funext z
  simp only [write, length_append]
  by_cases hin : a ≤ z ∧ z < a + (x.length + y.length)
  · rw [if_pos hin]
    by_cases hlate : a + x.length ≤ z
    · rw [if_pos ⟨hlate, by omega⟩, List.getElem?_append_right (by omega), Nat.sub_sub]
    · rw [if_neg (by omega), if_pos (by omega), List.getElem?_append_left (by omega)]
  · rw [if_neg hin, if_neg (by omega), if_neg (by omega)]

/-- A load beside a write sees what was there before. -/
theorem load_write_of_disjoint (h : b + n ≤ a ∨ a + x.length ≤ b) : (m.write a x).load b n = m.load b n :=
  load_congr fun i hi => write_outside (by omega)

/-- A write does not change what is mapped, where it is mapped itself. -/
theorem isSome_write (h : m.Mapped a x.length) (z : ℕ) : (m.write a x z).isSome = (m z).isSome := by
  by_cases hin : a ≤ z ∧ z < a + x.length
  · obtain ⟨i, rfl⟩ : ∃ i, z = a + i := ⟨z - a, by omega⟩
    have hi : i < x.length := by omega
    rw [write_inside hi, h i hi, List.getElem?_eq_getElem hi]
    rfl
  · rw [write_outside (by omega)]

theorem mapped_write (h : m.Mapped a x.length) : (m.write a x).Mapped b n ↔ m.Mapped b n :=
  forall₂_congr fun i _ => by rw [isSome_write h]

/-! ## Stores -/

/-- A store succeeds where the memory is mapped. -/
theorem store_eq_some_iff {m' : Memory} : m.store a x = some m' ↔ m.Mapped a x.length ∧ m' = m.write a x := by
  rw [store, map_eq_some_iff, ← isSome_load, isSome_iff_exists]
  constructor
  · rintro ⟨bytes, h, rfl⟩
    exact ⟨⟨bytes, h⟩, rfl⟩
  · rintro ⟨⟨bytes, h⟩, rfl⟩
    exact ⟨bytes, h, rfl⟩

/-- What is mapped can be stored to. -/
theorem Mapped.store (h : m.Mapped a x.length) : m.store a x = some (m.write a x) := store_eq_some_iff.mpr ⟨h, rfl⟩

/-- A range is mapped when both of its parts are. -/
theorem mapped_add : m.Mapped a (n + k) ↔ m.Mapped a n ∧ m.Mapped (a + n) k := by
  constructor
  · intro h
    refine ⟨fun i hi => h i (by omega), ?_⟩
    intro i hi
    rw [Nat.add_assoc]
    exact h (n + i) (by omega)
  · rintro ⟨hfirst, hrest⟩ i hi
    rcases Nat.lt_or_ge i n with hlt | hge
    · exact hfirst i hlt
    · have h := hrest (i - n) (by omega)
      rwa [Nat.add_assoc, Nat.add_sub_of_le hge] at h

/-- Two stores next to each other are one. -/
theorem store_append : m.store a (x ++ y) = (m.store a x).bind fun m' => m'.store (a + x.length) y := by
  apply ext
  intro m'
  rw [bind_eq_some_iff, store_eq_some_iff, length_append, mapped_add, write_append]
  constructor
  · rintro ⟨⟨hx, hy⟩, rfl⟩
    exact ⟨_, hx.store, store_eq_some_iff.mpr ⟨(mapped_write hx).mpr hy, rfl⟩⟩
  · rintro ⟨m₁, h₁, h₂⟩
    obtain ⟨hx, rfl⟩ := store_eq_some_iff.mp h₁
    obtain ⟨hy, rfl⟩ := store_eq_some_iff.mp h₂
    exact ⟨⟨hx, (mapped_write hx).mp hy⟩, rfl⟩

theorem store_nil : m.store a [] = some m := by
  rw [store, length_nil, load, map_some, write_nil]

/-! ## Moves -/

theorem move_zero : m.move d s 0 = some m := store_nil

/-- The memory after a move. -/
def moved (m : Memory) (d s n : ℕ) : Memory := fun z => if d ≤ z ∧ z < d + n then m (s + (z - d)) else m z

/-- A move succeeds where both ranges are mapped. -/
theorem move_eq_some_iff {m' : Memory} : m.move d s n = some m' ↔ m.Mapped s n ∧ m.Mapped d n ∧ m' = m.moved d s n := by
  have hwrite {bytes : List (BitVec 8)} (hbytes : m.load s n = some bytes) : m.write d bytes = m.moved d s n := by
    funext z
    rw [write, moved, load_length hbytes]
    by_cases hin : d ≤ z ∧ z < d + n
    · rw [if_pos hin, if_pos hin, load_get hbytes (by omega)]
    · rw [if_neg hin, if_neg hin]
  rw [move, bind_eq_some_iff]
  constructor
  · rintro ⟨bytes, hbytes, hstore⟩
    obtain ⟨hd, rfl⟩ := store_eq_some_iff.mp hstore
    rw [load_length hbytes] at hd
    exact ⟨isSome_load.mp (by rw [hbytes]; rfl), hd, hwrite hbytes⟩
  · rintro ⟨hs, hd, rfl⟩
    obtain ⟨bytes, hbytes⟩ := hs.load
    refine ⟨bytes, hbytes, store_eq_some_iff.mpr ⟨?_, (hwrite hbytes).symm⟩⟩
    rw [load_length hbytes]
    exact hd

/-- A move does not change what is mapped. -/
theorem mapped_moved {j : ℕ} (hs : m.Mapped s n) (hd : m.Mapped d n) : (m.moved d s n).Mapped b j ↔ m.Mapped b j := by
  apply forall₂_congr
  intro i _
  rw [moved]
  by_cases hin : d ≤ b + i ∧ b + i < d + n
  · have hdest := hd (b + i - d) (by omega)
    rw [Nat.add_sub_of_le hin.1] at hdest
    rw [if_pos hin, hs (b + i - d) (by omega), hdest]
  · rw [if_neg hin]

/-- Moving the first bytes first, when the destination is below the source or behind it. -/
theorem move_forward (h : d ≤ s ∨ s + (k + n) ≤ d) :
    m.move d s (k + n) = (m.move d s k).bind fun m' => m'.move (d + k) (s + k) n := by
  rw [move, move, load_add, bind_assoc, bind_assoc]
  apply Option.bind_congr
  intro x hx
  have hlen := load_length hx
  -- what the first store writes is not read any more
  have hread : ∀ m', m.store d x = some m' → m'.load (s + k) n = m.load (s + k) n := by
    intro m' hm'
    obtain ⟨-, rfl⟩ := store_eq_some_iff.mp hm'
    apply load_write_of_disjoint
    omega
  rw [bind_map]
  calc (m.load (s + k) n).bind (m.store d ∘ (x ++ ·))
      = (m.load (s + k) n).bind fun y => (m.store d x).bind fun m' => m'.store (d + k) y := by
        congr 1
        funext y
        rw [Function.comp_apply, store_append, hlen]
    _ = (m.store d x).bind fun m' => (m.load (s + k) n).bind fun y => m'.store (d + k) y := by
        cases m.store d x <;> cases m.load (s + k) n <;> rfl
    _ = (m.store d x).bind fun m' => m'.move (d + k) (s + k) n := by
        apply Option.bind_congr
        intro m' hm'
        rw [move, hread m' hm']

/-- Moving the last bytes first, when the destination is above the source or before it. -/
theorem move_backward (h : s ≤ d ∨ d + (n + k) ≤ s) :
    m.move d s (n + k) = (m.move (d + n) (s + n) k).bind fun m' => m'.move d s n := by
  have hmoved : (m.moved (d + n) (s + n) k).moved d s n = m.moved d s (n + k) := by
    funext z
    simp only [moved]
    by_cases hlow : d ≤ z ∧ z < d + n
    · -- the sources of the first bytes are not written yet
      rw [if_pos hlow, if_neg (by omega), if_pos (by omega)]
    · rw [if_neg hlow]
      by_cases hhigh : d + n ≤ z ∧ z < d + n + k
      · rw [if_pos hhigh, if_pos (by omega)]
        congr 1
        omega
      · rw [if_neg hhigh, if_neg (by omega)]
  apply ext
  intro m'
  rw [bind_eq_some_iff, move_eq_some_iff, mapped_add, mapped_add, ← hmoved]
  constructor
  · rintro ⟨⟨hs, hs'⟩, ⟨hd, hd'⟩, rfl⟩
    refine ⟨_, move_eq_some_iff.mpr ⟨hs', hd', rfl⟩, move_eq_some_iff.mpr ⟨?_, ?_, rfl⟩⟩
    · exact (mapped_moved hs' hd').mpr hs
    · exact (mapped_moved hs' hd').mpr hd
  · rintro ⟨m₁, h₁, h₂⟩
    obtain ⟨hs', hd', rfl⟩ := move_eq_some_iff.mp h₁
    obtain ⟨hs, hd, rfl⟩ := move_eq_some_iff.mp h₂
    exact ⟨⟨(mapped_moved hs' hd').mp hs, hs'⟩, ⟨(mapped_moved hs' hd').mp hd, hd'⟩, rfl⟩

end Memory

end Mettle.Lib

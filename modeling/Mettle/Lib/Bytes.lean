import Mathlib

/-!
# Little-endian words in a list of bytes

Reading and writing a stretch of a byte list, and numbers of a fixed count of bytes with the least significant
first.
-/

open List

namespace Mettle.Bytes

/-- The low `n` bytes of a number. -/
def leBytes : ℕ → ℕ → List (BitVec 8)
  | 0, _ => []
  | n + 1, v => BitVec.ofNat 8 v :: leBytes n (v / 256)

/-- The number that bytes stand for. -/
def leValue : List (BitVec 8) → ℕ
  | [] => 0
  | b :: bs => b.toNat + 256 * leValue bs

@[simp] theorem leBytes_length (n v : ℕ) : (leBytes n v).length = n := by
  induction n generalizing v with
  | zero => rfl
  | succ n ih => simp [leBytes, ih]

/-- Writing a number in `n` bytes keeps it modulo `256 ^ n`. -/
theorem leValue_leBytes (n v : ℕ) : leValue (leBytes n v) = v % 256 ^ n := by
  induction n generalizing v with
  | zero => simp [leBytes, leValue, Nat.mod_one]
  | succ n ih =>
    rw [leBytes, leValue, ih, BitVec.toNat_ofNat]
    show v % 256 + 256 * (v / 256 % 256 ^ n) = v % 256 ^ (n + 1)
    rw [pow_succ', Nat.mod_mul]

/-- The `n` bytes from `i`. -/
def readAt (bytes : List (BitVec 8)) (i n : ℕ) : List (BitVec 8) := (bytes.drop i).take n

/-- The bytes with some replaced from `i` on. -/
def writeAt (bytes : List (BitVec 8)) (i : ℕ) (data : List (BitVec 8)) : List (BitVec 8) :=
  bytes.take i ++ data ++ bytes.drop (i + data.length)

section

variable {bytes data : List (BitVec 8)} {i j n : ℕ}

/-- A write inside the bytes keeps their number. -/
theorem writeAt_length (h : i + data.length ≤ bytes.length) : (writeAt bytes i data).length = bytes.length := by
  simp only [writeAt, length_append, length_take, length_drop]
  omega

/-- What was written is read back. -/
theorem readAt_writeAt_self (h : i ≤ bytes.length) : readAt (writeAt bytes i data) i data.length = data := by
  have htake : (bytes.take i).length = i := length_take_of_le h
  rw [readAt, writeAt, append_assoc, drop_append_of_le_length htake.ge, drop_of_length_le htake.le,
    nil_append, take_left']
  rfl

/-- A read beside the written bytes sees what was there before. -/
theorem readAt_writeAt_of_disjoint (h : i + data.length ≤ bytes.length)
    (hdisjoint : j + n ≤ i ∨ i + data.length ≤ j) : readAt (writeAt bytes i data) j n = readAt bytes j n := by
  apply ext_getElem?
  intro k
  simp only [readAt, writeAt, List.getElem?_take, List.getElem?_drop, List.getElem?_append, length_append,
    length_take]
  split
  · rcases hdisjoint with hbefore | hafter
    · rw [if_pos (by omega), if_pos (by omega), if_pos (by omega)]
    · rw [if_neg (by omega)]
      congr 1
      omega
  · rfl

/-- Appending does not change what is read before the end. -/
theorem readAt_append (h : i + n ≤ bytes.length) : readAt (bytes ++ data) i n = readAt bytes i n := by
  rw [readAt, readAt, drop_append_of_le_length (by omega), take_append_of_le_length]
  rw [length_drop]
  omega

/-- The appended bytes start where the others end. -/
theorem readAt_append_self : readAt (bytes ++ data) bytes.length data.length = data := by
  simp [readAt]

end

/-! ## Words of thirty-two bits -/

def load32 (bytes : List (BitVec 8)) (i : ℕ) : BitVec 32 := BitVec.ofNat 32 (leValue (readAt bytes i 4))

def store32 (bytes : List (BitVec 8)) (i : ℕ) (w : BitVec 32) : List (BitVec 8) :=
  writeAt bytes i (leBytes 4 w.toNat)

section

variable {bytes data : List (BitVec 8)} {i j : ℕ} {w : BitVec 32}

/-- A 32-bit word survives the four bytes it is stored in. -/
theorem ofNat_leValue_leBytes : BitVec.ofNat 32 (leValue (leBytes 4 w.toNat)) = w := by
  rw [leValue_leBytes]
  apply BitVec.eq_of_toNat_eq
  rw [BitVec.toNat_ofNat]
  omega

/-- A word stored inside the bytes keeps their number. -/
theorem store32_length (h : i + 4 ≤ bytes.length) : (store32 bytes i w).length = bytes.length :=
  writeAt_length (by rw [leBytes_length]; exact h)

theorem load32_store32_self (h : i ≤ bytes.length) : load32 (store32 bytes i w) i = w := by
  have hread : readAt (store32 bytes i w) i 4 = leBytes 4 w.toNat := readAt_writeAt_self h
  rw [load32, hread, ofNat_leValue_leBytes]

/-- A read beside a stored word sees what was there before. -/
theorem readAt_store32_of_disjoint {n : ℕ} (h : i + 4 ≤ bytes.length) (hdisjoint : j + n ≤ i ∨ i + 4 ≤ j) :
    readAt (store32 bytes i w) j n = readAt bytes j n :=
  readAt_writeAt_of_disjoint (by rw [leBytes_length]; exact h) (by rw [leBytes_length]; exact hdisjoint)

/-- Appending does not change the words before the end. -/
theorem load32_append (h : i + 4 ≤ bytes.length) : load32 (bytes ++ data) i = load32 bytes i := by
  rw [load32, load32, readAt_append h]

/-- An appended word is loaded where the bytes ended. -/
theorem load32_append_self : load32 (bytes ++ leBytes 4 w.toNat) bytes.length = w := by
  have hread : readAt (bytes ++ leBytes 4 w.toNat) bytes.length 4 = leBytes 4 w.toNat := readAt_append_self
  rw [load32, hread, ofNat_leValue_leBytes]

end

end Mettle.Bytes

import Mettle.Lib.Memory

/-!
# Bytes of a word

A word of eight bytes, and the arithmetic that looks at all of them at once: the mask of the bytes that are zero, which is
exact as far as its lowest bit, and the lowest byte in which two words differ.
-/

open List
open BitVec hiding not_or

namespace Mettle.Lib

open Mettle.Bytes

/-- The word of some bytes, the least significant first. -/
def ofBytes (bytes : List (BitVec 8)) : BitVec 64 := BitVec.ofNat 64 (leValue bytes)

namespace Memory

/-- `__builtin_memcpy` of eight bytes into a word. -/
def loadWord (m : Memory) (a : ℕ) : Option (BitVec 64) := (m.load a 8).map ofBytes

/-- `__builtin_memcpy` of a word into memory. -/
def storeWord (m : Memory) (a : ℕ) (w : BitVec 64) : Option Memory := m.store a (leBytes 8 w.toNat)

end Memory

section

variable {bytes : List (BitVec 8)}

theorem leValue_lt (bytes : List (BitVec 8)) : leValue bytes < 256 ^ bytes.length := by
  induction bytes with
  | nil => exact Nat.one_pos
  | cons b rest ih =>
    rw [leValue, length_cons, pow_succ']
    omega

/-- The bytes of the value of some bytes are these bytes. -/
theorem leBytes_leValue (bytes : List (BitVec 8)) : leBytes bytes.length (leValue bytes) = bytes := by
  induction bytes with
  | nil => rfl
  | cons b rest ih =>
    have hdiv : (b.toNat + 256 * leValue rest) / 256 = leValue rest := by omega
    rw [length_cons, leBytes, leValue, hdiv, ih]
    congr 1
    apply eq_of_toNat_eq
    rw [toNat_ofNat]
    omega

theorem toNat_ofBytes (h : bytes.length = 8) : (ofBytes bytes).toNat = leValue bytes := by
  have hlt := leValue_lt bytes
  rw [h] at hlt
  exact Nat.mod_eq_of_lt hlt

theorem leBytes_ofBytes (h : bytes.length = 8) : leBytes 8 (ofBytes bytes).toNat = bytes := by
  have heq := leBytes_leValue bytes
  rw [h] at heq
  rw [toNat_ofBytes h, heq]

/-- A word that is loaded and stored is eight bytes moved. -/
theorem Memory.loadWord_storeWord (m : Memory) (d s : ℕ) :
    ((m.loadWord s).bind fun w => m.storeWord d w) = m.move d s 8 := by
  rw [loadWord, move, Option.bind_map]
  apply Option.bind_congr
  intro bytes hbytes
  rw [Function.comp_apply, storeWord, leBytes_ofBytes (load_length hbytes)]

/-! ## Operations on each byte -/

variable {x y x' y' : ℕ} {b a : BitVec 8} {front : List (BitVec 8)}

/-- A bitwise operation on numbers is one on their lowest bytes and one on the rest. -/
theorem and_bytes (hx : x < 256) (hy : y < 256) :
    (x + 256 * x') &&& (y + 256 * y') = (x &&& y) + 256 * (x' &&& y') := by
  have hlow : ((x + 256 * x') &&& (y + 256 * y')) % 2 ^ 8 = x &&& y := by
    rw [Nat.and_mod_two_pow]
    congr 1 <;> omega
  have hhigh : ((x + 256 * x') &&& (y + 256 * y')) / 2 ^ 8 = x' &&& y' := by
    rw [Nat.and_div_two_pow]
    congr 1 <;> omega
  rw [← Nat.mod_add_div ((x + 256 * x') &&& (y + 256 * y')) (2 ^ 8), hlow, hhigh]
  rfl

/-- An exclusive or, byte by byte. -/
theorem xor_bytes (hx : x < 256) (hy : y < 256) :
    (x + 256 * x') ^^^ (y + 256 * y') = (x ^^^ y) + 256 * (x' ^^^ y') := by
  have hlow : ((x + 256 * x') ^^^ (y + 256 * y')) % 2 ^ 8 = x ^^^ y := by
    rw [Nat.xor_mod_two_pow]
    congr 1 <;> omega
  have hhigh : ((x + 256 * x') ^^^ (y + 256 * y')) / 2 ^ 8 = x' ^^^ y' := by
    rw [Nat.xor_div_two_pow]
    congr 1 <;> omega
  rw [← Nat.mod_add_div ((x + 256 * x') ^^^ (y + 256 * y')) (2 ^ 8), hlow, hhigh]
  rfl

/-- The exclusive or with a repeated byte. -/
theorem leValue_xor (c : BitVec 8) (bytes : List (BitVec 8)) :
    leValue bytes ^^^ leValue (List.replicate bytes.length c) = leValue (bytes.map (· ^^^ c)) := by
  induction bytes with
  | nil => simp [leValue]
  | cons b rest ih =>
    rw [length_cons, List.replicate_succ, map_cons, leValue, leValue, leValue, xor_bytes b.isLt c.isLt, ih,
      toNat_xor]

/-- The same byte in each place, by a multiplication. -/
theorem leValue_replicate (c : BitVec 8) (n : ℕ) :
    leValue (List.replicate n c) = c.toNat * leValue (List.replicate n 1#8) := by
  induction n with
  | zero => rfl
  | succ n ih =>
    rw [List.replicate_succ, List.replicate_succ, leValue, leValue, ih]
    show _ = c.toNat * (1 + _)
    ring

/-! ## The mask of zero bytes -/

/-- The arithmetic of the mask on numbers of a count of bytes. -/
def zeroMaskNat (bytes : List (BitVec 8)) : ℕ :=
  let all := 256 ^ bytes.length
  (leValue bytes + all - leValue (List.replicate bytes.length 1#8)) % all &&& (all - 1 - leValue bytes) &&&
    leValue (List.replicate bytes.length 128#8)

theorem leValue_ones_lt (n : ℕ) : leValue (List.replicate n 1#8) < 256 ^ n := by
  have h := leValue_lt (List.replicate n 1#8)
  rwa [length_replicate] at h

/-- Behind a byte that is not zero nothing is borrowed, and the byte leaves no bit. -/
theorem zeroMaskNat_cons_of_ne (hb : b ≠ 0#8) (rest : List (BitVec 8)) :
    zeroMaskNat (b :: rest) = 256 * zeroMaskNat rest := by
  have hones := leValue_ones_lt rest.length
  have hvalue := leValue_lt rest
  have hlt : b.toNat < 256 := b.isLt
  have hpos : 0 < b.toNat := Nat.pos_of_ne_zero fun h => hb (eq_of_toNat_eq h)
  have hbyte : (b.toNat - 1) &&& (255 - b.toNat) &&& 128 = 0 := by
    have hall : ∀ k < 256, 0 < k → (k - 1) &&& (255 - k) &&& 128 = 0 := by decide +kernel
    exact hall _ hlt hpos
  simp only [zeroMaskNat, length_cons, List.replicate_succ, leValue, pow_succ']
  generalize leValue (List.replicate rest.length 1#8) = ones at hones ⊢
  generalize leValue (List.replicate rest.length 128#8) = high
  generalize leValue rest = value at hvalue ⊢
  generalize 256 ^ rest.length = all at hones hvalue ⊢
  have hsub : (b.toNat + 256 * value + 256 * all - ((1#8).toNat + 256 * ones)) % (256 * all) =
      (b.toNat - 1) + 256 * ((value + all - ones) % all) := by
    have hone : (1#8).toNat = 1 := rfl
    have hsplit : b.toNat + 256 * value + 256 * all - (1 + 256 * ones) = (b.toNat - 1) + 256 * (value + all - ones) := by
      omega
    rw [hone, hsplit, Nat.mod_mul, show (b.toNat - 1 + 256 * (value + all - ones)) / 256 = value + all - ones by omega]
    congr 1
    omega
  have hnot : 256 * all - 1 - (b.toNat + 256 * value) = (255 - b.toNat) + 256 * (all - 1 - value) := by omega
  have hhigh : (128#8).toNat + 256 * high = 128 + 256 * high := rfl
  rw [hsub, hnot, hhigh, and_bytes (by omega) (by omega),
    and_bytes ((Nat.and_le_left).trans_lt (by omega)) (by omega), hbyte, Nat.zero_add]

/-- A byte that is zero leaves its highest bit. -/
theorem zeroMaskNat_cons_zero (rest : List (BitVec 8)) : zeroMaskNat (0#8 :: rest) % 256 = 128 := by
  have hones := leValue_ones_lt rest.length
  have hvalue := leValue_lt rest
  simp only [zeroMaskNat, length_cons, List.replicate_succ, leValue, pow_succ']
  generalize leValue (List.replicate rest.length 1#8) = ones at hones ⊢
  generalize leValue (List.replicate rest.length 128#8) = high
  generalize leValue rest = value at hvalue ⊢
  generalize 256 ^ rest.length = all at hones hvalue ⊢
  have hsub : ((0#8).toNat + 256 * value + 256 * all - ((1#8).toNat + 256 * ones)) % (256 * all) % 2 ^ 8 = 255 := by
    have hzero : (0#8).toNat = 0 := rfl
    have hone : (1#8).toNat = 1 := rfl
    rw [hzero, hone, show (2 : ℕ) ^ 8 = 256 from rfl, Nat.mod_mul_right_mod]
    omega
  have hnot : (256 * all - 1 - ((0#8).toNat + 256 * value)) % 2 ^ 8 = 255 := by
    have hzero : (0#8).toNat = 0 := rfl
    omega
  have hhigh : ((128#8).toNat + 256 * high) % 2 ^ 8 = 128 := by
    have h128 : (128#8).toNat = 128 := rfl
    omega
  rw [show (256 : ℕ) = 2 ^ 8 from rfl] at hsub hnot hhigh ⊢
  rw [Nat.and_mod_two_pow, Nat.and_mod_two_pow, hsub, hnot, hhigh]
  rfl

/-- The mask is zero when no byte is, and its lowest bit is that of the first zero byte. -/
theorem zeroMaskNat_eq_zero (h : 0#8 ∉ bytes) : zeroMaskNat bytes = 0 := by
  induction bytes with
  | nil => rfl
  | cons b rest ih =>
    rw [mem_cons, not_or] at h
    rw [zeroMaskNat_cons_of_ne (Ne.symm h.1), ih h.2]

/-- Up to the first zero byte the mask has only its bit. -/
theorem zeroMaskNat_mod (rest : List (BitVec 8)) (h : 0#8 ∉ front) :
    zeroMaskNat (front ++ 0#8 :: rest) % 256 ^ (front.length + 1) = 128 * 256 ^ front.length := by
  induction front with
  | nil => exact zeroMaskNat_cons_zero rest
  | cons b front ih =>
    rw [mem_cons, not_or] at h
    rw [List.cons_append, zeroMaskNat_cons_of_ne (Ne.symm h.1), length_cons, pow_succ' 256 (front.length + 1),
      Nat.mul_mod_mul_left, ih h.2, pow_succ' 256 front.length]
    ring

/-! ## The lowest bit of a word -/

/-- The byte of the lowest bit that is set. -/
theorem ctz_div_eight {x : BitVec 64} {i : ℕ} (hlow : x.toNat % 256 ^ i = 0) (hhigh : x.toNat % 256 ^ (i + 1) ≠ 0) :
    x ≠ 0#64 ∧ x.ctz.toNat / 8 = i := by
  have hne : x ≠ 0#64 := by
    rintro rfl
    exact hhigh (Nat.zero_mod _)
  have hpow (j : ℕ) : 256 ^ j = 2 ^ (8 * j) := by rw [pow_mul]; rfl
  have hset := getLsbD_true_ctz_of_ne_zero hne
  have hclear (j : ℕ) (hj : j < x.ctz.toNat) : x.getLsbD j = false := getLsbD_false_of_lt_ctz hj
  generalize x.ctz.toNat = c at hset hclear ⊢
  refine ⟨hne, ?_⟩
  have hge : 8 * i ≤ c := by
    by_contra hlt
    have hbit : (x.toNat % 2 ^ (8 * i)).testBit c = true := by
      rw [Nat.testBit_mod_two_pow, decide_eq_true (not_le.mp hlt), Bool.true_and]
      exact hset
    rw [← hpow, hlow, Nat.zero_testBit] at hbit
    cases hbit
  have hlt : c < 8 * (i + 1) := by
    by_contra hge
    apply hhigh
    rw [hpow]
    apply Nat.eq_of_testBit_eq
    intro j
    rw [Nat.testBit_mod_two_pow, Nat.zero_testBit]
    by_cases hj : j < 8 * (i + 1)
    · rw [decide_eq_true hj, Bool.true_and]
      exact hclear j (hj.trans_le (not_lt.mp hge))
    · rw [decide_eq_false hj, Bool.false_and]
  omega

/-- The mask of the zero bytes of a word. -/
def zeroMask (w : BitVec 64) : BitVec 64 := (w - 0x0101010101010101#64) &&& ~~~w &&& 0x8080808080808080#64

/-- The mask of a word over the naturals. -/
theorem toNat_zeroMask (h : bytes.length = 8) : (zeroMask (ofBytes bytes)).toNat = zeroMaskNat bytes := by
  have hlt := leValue_lt bytes
  have hones : leValue (List.replicate 8 1#8) = 0x0101010101010101 := by decide
  have hhigh : leValue (List.replicate 8 128#8) = 0x8080808080808080 := by decide
  rw [zeroMask, zeroMaskNat, toNat_and, toNat_and, toNat_sub, toNat_not, toNat_ofBytes h, h,
    hones, hhigh, Nat.add_comm, ← Nat.add_sub_assoc (by decide)]
  rfl

/-- No byte of the word is zero. -/
theorem zeroMask_eq_zero (h : bytes.length = 8) (hnone : 0#8 ∉ bytes) : zeroMask (ofBytes bytes) = 0#64 := by
  apply eq_of_toNat_eq
  rw [toNat_zeroMask h, zeroMaskNat_eq_zero hnone]
  rfl

/-- The lowest bit of the mask is in the first byte that is zero. -/
theorem zeroMask_first (rest : List (BitVec 8)) (h : (front ++ 0#8 :: rest).length = 8) (hfront : 0#8 ∉ front) :
    zeroMask (ofBytes (front ++ 0#8 :: rest)) ≠ 0#64 ∧
      (zeroMask (ofBytes (front ++ 0#8 :: rest))).ctz.toNat / 8 = front.length := by
  have hmod := zeroMaskNat_mod rest hfront
  apply ctz_div_eight
  · rw [toNat_zeroMask h]
    have hdvd : 256 ^ front.length ∣ 256 ^ (front.length + 1) := pow_dvd_pow _ (Nat.le_succ _)
    rw [← Nat.mod_mod_of_dvd _ hdvd, hmod, Nat.mul_mod_left]
  · rw [toNat_zeroMask h, hmod]
    omega

/-! ## A byte in each place -/

/-- A byte repeated over a word, as a product. -/
theorem ofBytes_replicate (c : BitVec 8) : ofBytes (List.replicate 8 c) = c.setWidth 64 * 0x0101010101010101#64 := by
  have hones : leValue (List.replicate 8 1#8) = 0x0101010101010101 := by decide
  apply eq_of_toNat_eq
  rw [toNat_ofBytes (length_replicate ..), leValue_replicate, hones, toNat_mul, toNat_setWidth]
  show _ = c.toNat % 2 ^ 64 * 0x0101010101010101 % 2 ^ 64
  omega

/-- The exclusive or of a word with a repeated byte. -/
theorem ofBytes_xor (c : BitVec 8) (h : bytes.length = 8) :
    ofBytes bytes ^^^ ofBytes (List.replicate 8 c) = ofBytes (bytes.map (· ^^^ c)) := by
  have hxor := leValue_xor c bytes
  rw [h] at hxor
  apply eq_of_toNat_eq
  rw [toNat_xor, toNat_ofBytes h, toNat_ofBytes (length_replicate ..),
    toNat_ofBytes (by rw [length_map, h]), hxor]

/-- Equal bytes become zero. -/
theorem zero_mem_map_xor {c : BitVec 8} : 0#8 ∈ bytes.map (· ^^^ c) ↔ c ∈ bytes := by
  rw [mem_map]
  constructor
  · rintro ⟨b, hb, hxor⟩
    rwa [← BitVec.xor_eq_zero_iff.mp hxor]
  · intro hc
    exact ⟨c, hc, BitVec.xor_self⟩

/-! ## The first difference -/

/-- The value of bytes in two parts. -/
theorem leValue_append (x y : List (BitVec 8)) : leValue (x ++ y) = leValue x + 256 ^ x.length * leValue y := by
  induction x with
  | nil => simp [leValue]
  | cons b x ih =>
    rw [List.cons_append, leValue, leValue, ih, length_cons, pow_succ']
    ring

/-- Equal words have equal bytes. -/
theorem ofBytes_injective {x y : List (BitVec 8)} (hx : x.length = 8) (hy : y.length = 8) (h : ofBytes x = ofBytes y) :
    x = y := by
  rw [← leBytes_ofBytes hx, ← leBytes_ofBytes hy, h]

/-- A byte behind others. -/
theorem byte_ofBytes {rest : List (BitVec 8)} (h : (front ++ a :: rest).length = 8) :
    ((ofBytes (front ++ a :: rest) >>> (8 * front.length)) &&& 0xff#64).toNat = a.toNat := by
  have hfront := leValue_lt front
  have hpow : 2 ^ (8 * front.length) = 256 ^ front.length := by rw [pow_mul]; rfl
  rw [toNat_and, toNat_ushiftRight, toNat_ofBytes h, leValue_append, Nat.shiftRight_eq_div_pow, hpow,
    Nat.add_mul_div_left _ _ (Nat.pow_pos (by norm_num)), Nat.div_eq_of_lt hfront, Nat.zero_add, leValue]
  show (a.toNat + 256 * leValue rest) &&& (2 ^ 8 - 1) = a.toNat
  rw [Nat.and_two_pow_sub_one_eq_mod]
  omega

/-- The lowest bit in which two words differ is in the first byte in which they do. -/
theorem xor_first {x y : List (BitVec 8)} (hx : (front ++ a :: x).length = 8) (hy : (front ++ b :: y).length = 8)
    (hne : a ≠ b) : (ofBytes (front ++ a :: x) ^^^ ofBytes (front ++ b :: y)).ctz.toNat / 8 = front.length := by
  have hfront := leValue_lt front
  have ha : a.toNat < 256 := a.isLt
  have hb : b.toNat < 256 := b.isLt
  have hpow (j : ℕ) : 256 ^ j = 2 ^ (8 * j) := by rw [pow_mul]; rfl
  have hxor : (ofBytes (front ++ a :: x) ^^^ ofBytes (front ++ b :: y)).toNat =
      (leValue front + 256 ^ front.length * leValue (a :: x)) ^^^
        (leValue front + 256 ^ front.length * leValue (b :: y)) := by
    rw [toNat_xor, toNat_ofBytes hx, toNat_ofBytes hy, leValue_append, leValue_append]
  refine (ctz_div_eight ?_ ?_).2
  · rw [hxor, hpow, Nat.xor_mod_two_pow, ← hpow, Nat.add_mul_mod_self_left, Nat.add_mul_mod_self_left, Nat.xor_self]
  · intro hzero
    -- cutting off the common bytes leaves the difference of the next ones
    have hdiv : (ofBytes (front ++ a :: x) ^^^ ofBytes (front ++ b :: y)).toNat / 256 ^ front.length % 256 =
        a.toNat ^^^ b.toNat := by
      rw [hxor, hpow, Nat.xor_div_two_pow, ← hpow, Nat.add_mul_div_left _ _ (Nat.pow_pos (by norm_num)),
        Nat.add_mul_div_left _ _ (Nat.pow_pos (by norm_num)), Nat.div_eq_of_lt hfront, Nat.zero_add, Nat.zero_add,
        leValue, leValue, xor_bytes ha hb, Nat.add_mul_mod_self_left]
      exact Nat.mod_eq_of_lt (Nat.xor_lt_two_pow (n := 8) ha hb)
    have hmod : (ofBytes (front ++ a :: x) ^^^ ofBytes (front ++ b :: y)).toNat / 256 ^ front.length % 256 = 0 := by
      rw [pow_succ, Nat.mod_mul, Nat.add_eq_zero_iff] at hzero
      exact (Nat.mul_eq_zero.mp hzero.2).resolve_left (Nat.pow_pos (by norm_num)).ne'
    rw [hdiv] at hmod
    exact hne (eq_of_toNat_eq (Nat.xor_eq_zero_iff.mp hmod))

end

end Mettle.Lib

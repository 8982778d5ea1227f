import Mettle.Runtime.Freestanding

/-!
# The memory routines are right

Each loop absorbs one block of the byte-wise meaning: a store of the same byte everywhere, a move of all bytes, or the
first byte that stops a search.
-/

open List Option Function

namespace Mettle.Runtime

open Mettle.Lib Mettle.Bytes

section

variable {m : Memory} {d s n count : ℕ}

/-! ## `memset` -/

/-- The pattern of a byte is eight times the byte. -/
theorem mtPattern_eq (byte : BitVec 8) : mtPattern byte = ofBytes (replicate 8 byte) := (ofBytes_replicate byte).symm

/-- Storing the pattern stores the byte eight times. -/
theorem storeWord_mtPattern (m : Memory) (a : ℕ) (byte : BitVec 8) :
    m.storeWord a (mtPattern byte) = m.store a (replicate 8 byte) := by
  rw [mtPattern_eq, Memory.storeWord, leBytes_ofBytes (length_replicate ..)]

/-- A long run of one byte is two runs. -/
theorem store_replicate (m : Memory) (a n k : ℕ) (byte : BitVec 8) :
    m.store a (replicate (n + k) byte) =
      (m.store a (replicate n byte)).bind fun m' => m'.store (a + n) (replicate k byte) := by
  rw [replicate_add, Memory.store_append, length_replicate]

/-- Four words of one byte are thirty-two such bytes. -/
theorem store_words (m : Memory) (a : ℕ) (byte : BitVec 8) (rest : Memory → Option (ℕ × Memory)) :
    (do
      let m ← m.storeWord a (mtPattern byte)
      let m ← m.storeWord (a + 8) (mtPattern byte)
      let m ← m.storeWord (a + 16) (mtPattern byte)
      let m ← m.storeWord (a + 24) (mtPattern byte)
      rest m) = (m.store a (replicate 32 byte)).bind rest := by
  have hsplit : replicate 32 byte =
      replicate 8 byte ++ (replicate 8 byte ++ (replicate 8 byte ++ replicate 8 byte)) := by
    rw [← replicate_add, ← replicate_add, ← replicate_add]
  simp only [hsplit, storeWord_mtPattern, bind_eq_bind, Memory.store_append, length_replicate,
    bind_assoc]

/-- The store of the byte from an offset on, with the pointer that `memset` returns. -/
def filledFrom (destination : ℕ) (byte : BitVec 8) (o n : ℕ) (m : Memory) : Option (ℕ × Memory) :=
  (m.store (destination + o) (List.replicate n byte)).map (destination, ·)

/-- A fill in two parts. -/
theorem filledFrom_add (destination : ℕ) (byte : BitVec 8) (o k n : ℕ) (hk : k ≤ n) (m : Memory) :
    ((m.store (destination + o) (replicate k byte)).bind fun m' => filledFrom destination byte (o + k) (n - k) m') =
      filledFrom destination byte o n m := by
  obtain ⟨j, rfl⟩ := Nat.exists_eq_add_of_le hk
  rw [filledFrom, store_replicate, Option.map_bind, Nat.add_sub_cancel_left]
  congr 1
  funext m'
  rw [filledFrom, comp_apply, Nat.add_assoc]

/-- `memset` stores the byte as often as asked for. -/
theorem memset_eq (m : Memory) (destination : ℕ) (value : BitVec 32) (count : ℕ) :
    memset m destination value count =
      (m.store destination (replicate count (value.setWidth 8))).map (destination, ·) := by
  rw [memset]
  generalize value.setWidth 8 = byte
  show _ = filledFrom destination byte 0 count m
  apply congrFun
  apply whileBlocks_eq (fun _ _ => True) _ (by decide) ?_ ?_ trivial
  · intro o n rest _ hn hrest
    funext m
    rw [hrest trivial, ← filledFrom_add destination byte o 32 n hn m]
    exact store_words m _ byte _
  · intro o n _ _
    apply whileBlocks_eq (fun _ _ => True) _ (by decide) ?_ ?_ trivial
    · intro o n rest _ hn hrest
      funext m
      simp only [hrest trivial, storeWord_mtPattern, bind_eq_bind]
      exact filledFrom_add destination byte o 8 n hn m
    · intro o n _ _
      apply whileBlocks_eq (fun _ _ => True) _ (by decide) ?_ ?_ trivial
      · intro o n rest _ hn hrest
        funext m
        simp only [hrest trivial, bind_eq_bind]
        exact filledFrom_add destination byte o 1 n hn m
      · intro o n _ hn
        funext m
        rw [Nat.lt_one_iff.mp hn, filledFrom, replicate_zero, Memory.store_nil]
        rfl

/-! ## `memcpy` and `memmove` -/

/-- A byte that is read and written is one byte moved. -/
theorem move_one (m : Memory) (d s : ℕ) : ((m s).bind fun a => m.store d [a]) = m.move d s 1 := by
  rw [Memory.move, Memory.load, bind_assoc]
  rfl

/-- Four words that are loaded and then stored are thirty-two bytes moved. -/
theorem move_words (m : Memory) (d s : ℕ) (rest : Memory → Option (ℕ × Memory)) :
    (do
      let a ← m.loadWord s
      let b ← m.loadWord (s + 8)
      let c ← m.loadWord (s + 16)
      let e ← m.loadWord (s + 24)
      let m ← m.storeWord d a
      let m ← m.storeWord (d + 8) b
      let m ← m.storeWord (d + 16) c
      let m ← m.storeWord (d + 24) e
      rest m) = (m.move d s 32).bind rest := by
  have hload : m.load s 32 = (m.load s 8).bind fun w => (m.load (s + 8) 8).bind fun x => (m.load (s + 16) 8).bind fun y =>
      (m.load (s + 24) 8).map fun z => w ++ (x ++ (y ++ z)) := by
    rw [show (32 : ℕ) = 8 + (8 + (8 + 8)) from rfl, Memory.load_add, Memory.load_add, Memory.load_add]
    simp only [Option.map_bind, comp_def, Option.map_map]
  simp only [Memory.loadWord, Memory.move, hload, bind_eq_bind, bind_map, bind_assoc,
    comp_def]
  apply Option.bind_congr
  intro w hw
  apply Option.bind_congr
  intro x hx
  apply Option.bind_congr
  intro y hy
  apply Option.bind_congr
  intro z hz
  simp only [Memory.storeWord, leBytes_ofBytes (Memory.load_length hw), leBytes_ofBytes (Memory.load_length hx),
    leBytes_ofBytes (Memory.load_length hy), leBytes_ofBytes (Memory.load_length hz), Memory.store_append,
    Memory.load_length hw, Memory.load_length hx, Memory.load_length hy, bind_assoc]

/-- The move from an offset on, with the pointer that `memcpy` returns. -/
def movedFrom (destination source o n : ℕ) (m : Memory) : Option (ℕ × Memory) :=
  (m.move (destination + o) (source + o) n).map (destination, ·)

variable {destination source : ℕ}

/-- A forward copy in two parts. -/
theorem movedFrom_add {o n : ℕ} (k : ℕ) (hk : k ≤ n) (h : destination ≤ source ∨ source + n ≤ destination)
    (m : Memory) :
    ((m.move (destination + o) (source + o) k).bind fun m' => movedFrom destination source (o + k) (n - k) m') =
      movedFrom destination source o n m := by
  obtain ⟨j, rfl⟩ := Nat.exists_eq_add_of_le hk
  rw [movedFrom, Memory.move_forward (by omega), Option.map_bind, Nat.add_sub_cancel_left]
  congr 1
  funext m'
  rw [movedFrom, comp_apply, Nat.add_assoc, Nat.add_assoc]

/-- `memcpy` moves the bytes when the destination is not behind the source in the range. -/
theorem memcpy_eq (m : Memory) {count : ℕ} (h : destination ≤ source ∨ source + count ≤ destination) :
    memcpy m destination source count = (m.move destination source count).map (destination, ·) := by
  rw [memcpy]
  show _ = movedFrom destination source 0 count m
  apply congrFun
  have hmoved {o n : ℕ} (k : ℕ) (hk : k ≤ n) (hn : n ≤ count) (m : Memory) :
      ((m.move (destination + o) (source + o) k).bind fun m' => movedFrom destination source (o + k) (n - k) m') =
        movedFrom destination source o n m := movedFrom_add k hk (by omega) m
  apply whileBlocks_eq (fun _ n => n ≤ count) _ (by decide) ?_ ?_ le_rfl
  · intro o n rest hcount hn hrest
    funext m
    rw [hrest (by omega), ← hmoved 32 hn hcount m]
    exact move_words m _ _ _
  · intro o n hcount _
    apply whileBlocks_eq (fun _ n => n ≤ count) _ (by decide) ?_ ?_ hcount
    · intro o n rest hcount hn hrest
      funext m
      rw [hrest (by omega), ← hmoved 8 hn hcount m, ← Memory.loadWord_storeWord, bind_assoc]
      rfl
    · intro o n hcount _
      apply whileBlocks_eq (fun _ n => n ≤ count) _ (by decide) ?_ ?_ hcount
      · intro o n rest hcount hn hrest
        funext m
        rw [hrest (by omega), ← hmoved 1 hn hcount m, ← move_one, bind_assoc]
        rfl
      · intro o n _ hn
        funext m
        rw [Nat.lt_one_iff.mp hn, movedFrom, Memory.move_zero]
        rfl

/-- The move of the first bytes, with the pointer that `memmove` returns. -/
def movedBelow (destination source n : ℕ) (m : Memory) : Option (ℕ × Memory) :=
  (m.move destination source n).map (destination, ·)

/-- When the bytes behind are moved, those before are still the ones to move. -/
theorem movedBelow_add (h : source ≤ destination) (k n : ℕ) (m : Memory) :
    ((m.move (destination + n) (source + n) k).bind fun m' => movedBelow destination source n m') =
      movedBelow destination source (n + k) m := by
  rw [movedBelow, Memory.move_backward (Or.inl h), Option.map_bind]
  rfl

/-- `memmove` moves them in every case. -/
theorem memmove_eq {m m' : Memory} {count : ℕ} (h : m.move destination source count = some m') :
    memmove m destination source count = some (destination, m') := by
  rw [memmove]
  by_cases hnone : destination = source ∨ count = 0
  · -- nothing is written where the bytes are in place already
    obtain ⟨-, -, rfl⟩ := Memory.move_eq_some_iff.mp h
    have hsame : m.moved destination source count = m := by
      funext z
      rw [Memory.moved]
      by_cases hin : destination ≤ z ∧ z < destination + count
      · rw [if_pos hin]
        congr 1
        omega
      · rw [if_neg hin]
    rw [if_pos hnone, hsame]
  · rw [if_neg hnone]
    -- forwards where the target lies below or apart, else backwards from the end
    by_cases hforward : destination < source ∨ source + count ≤ destination
    · rw [if_pos hforward, memcpy_eq m (by omega), h]
      rfl
    · rw [if_neg hforward]
      have hle : source ≤ destination := by omega
      have hspec : movedBelow destination source count m = some (destination, m') := by
        rw [movedBelow, h]
        rfl
      rw [← hspec]
      apply congrFun
      apply whileBack_eq (by decide)
      · intro n
        funext m
        rw [← movedBelow_add hle 8 n m, ← Memory.loadWord_storeWord, bind_assoc]
        rfl
      · intro n _
        apply whileBack_eq (by decide)
        · intro n
          funext m
          rw [← movedBelow_add hle 1 n m, ← move_one, bind_assoc]
          rfl
        · intro n hn
          funext m
          rw [Nat.lt_one_iff.mp hn, movedBelow, Memory.move_zero]
          rfl

/-! ## Words that are searched -/

end

/-- The bytes of a range are mapped and none of them is `c`. -/
def Absent (m : Memory) (c : BitVec 8) (a n : ℕ) : Prop := ∀ i < n, ∃ b, m (a + i) = some b ∧ b ≠ c

/-- The bytes of two ranges are mapped and equal. -/
def Same (m : Memory) (a b n : ℕ) : Prop := ∀ i < n, ∃ c, m (a + i) = some c ∧ m (b + i) = some c

section

variable {m : Memory} {a b n k : ℕ} {c : BitVec 8}

variable {o j memory i left right : ℕ} {bytes : List (BitVec 8)} {x y : BitVec 8} {character : BitVec 32}

/-- A byte that is absent is absent from a part. -/
theorem Absent.sub (h : Absent m c a n) (ho : o + j ≤ n) : Absent m c (a + o) j := by
  intro i hi
  rw [Nat.add_assoc]
  exact h (o + i) (by omega)

theorem Same.sub (h : Same m a b n) (ho : o + j ≤ n) : Same m (a + o) (b + o) j := by
  intro i hi
  rw [Nat.add_assoc, Nat.add_assoc]
  exact h (o + i) (by omega)

/-- Where a byte is known to be absent there is memory. -/
theorem Absent.mapped (h : Absent m c a n) : m.Mapped a n := by
  intro i hi
  obtain ⟨b, hb, -⟩ := h i hi
  rw [hb]
  rfl

/-- Among mapped bytes, one is the first that is `c`, or none is. -/
theorem first_or_absent (h : m.Mapped a n) (c : BitVec 8) :
    Absent m c a n ∨ ∃ k < n, m (a + k) = some c ∧ Absent m c a k := by
  induction n with
  | zero => exact Or.inl fun i hi => absurd hi (Nat.not_lt_zero i)
  | succ n ih =>
    rcases ih fun i hi => h i (by omega) with hnone | ⟨k, hk, hfirst⟩
    · obtain ⟨b, hb⟩ := isSome_iff_exists.mp (h n (Nat.lt_succ_self n))
      by_cases heq : b = c
      · exact Or.inr ⟨n, Nat.lt_succ_self n, heq ▸ hb, hnone⟩
      · left
        intro i hi
        rcases Nat.lt_succ_iff_lt_or_eq.mp hi with hlt | rfl
        · exact hnone i hlt
        · exact ⟨b, hb, heq⟩
    · exact Or.inr ⟨k, by omega, hfirst⟩

theorem loadWord_eq (h : m.load a 8 = some bytes) : m.loadWord a = some (ofBytes bytes) := by
  rw [Memory.loadWord, h]
  rfl

/-- The bytes that are loaded, around one of them. -/
theorem split_load (h : m.load a n = some bytes) (hk : k < n) (hc : m (a + k) = some c) :
    ∃ front rest, bytes = front ++ c :: rest ∧ front.length = k ∧ ∀ i < k, m (a + i) = front[i]? := by
  have hget : bytes[k]? = some c := by rw [← Memory.load_get h hk, hc]
  obtain ⟨hlt, hgetk⟩ := List.getElem?_eq_some_iff.mp hget
  refine ⟨bytes.take k, bytes.drop (k + 1), ?_, by rw [length_take]; omega, ?_⟩
  · rw [← hgetk, ← drop_eq_getElem_cons hlt, take_append_drop]
  · intro i hi
    rw [Memory.load_get h (by omega), List.getElem?_take_of_lt hi]

/-- A word without the byte passes the test of the word loop. -/
theorem word_absent (h : Absent m c a 8) :
    ∃ word, m.loadWord a = some word ∧ mtWordZeroMask (word ^^^ mtPattern c) = 0#64 := by
  obtain ⟨bytes, hbytes⟩ := h.mapped.load
  have hlen := Memory.load_length hbytes
  refine ⟨ofBytes bytes, loadWord_eq hbytes, ?_⟩
  rw [mtPattern_eq, ofBytes_xor c hlen]
  apply zeroMask_eq_zero (by rw [length_map, hlen])
  rw [zero_mem_map_xor]
  intro hmem
  obtain ⟨i, hi, hget⟩ := mem_iff_getElem.mp hmem
  obtain ⟨b, hb, hne⟩ := h i (by omega)
  rw [Memory.load_get hbytes (by omega), List.getElem?_eq_getElem hi, hget] at hb
  exact hne (some.inj hb).symm

/-- A word with the byte fails the test, and the mask tells where it is first. -/
theorem word_first (hmapped : m.Mapped a 8) (hk : k < 8) (hc : m (a + k) = some c) (h : Absent m c a k) :
    ∃ word, m.loadWord a = some word ∧ mtWordZeroMask (word ^^^ mtPattern c) ≠ 0#64 ∧
      ctzByte (mtWordZeroMask (word ^^^ mtPattern c)) = k := by
  obtain ⟨bytes, hbytes⟩ := hmapped.load
  obtain ⟨front, rest, rfl, rfl, hfront⟩ := split_load hbytes hk hc
  have hlen := Memory.load_length hbytes
  refine ⟨_, loadWord_eq hbytes, ?_⟩
  rw [mtPattern_eq, ofBytes_xor c hlen, map_append, map_cons, BitVec.xor_self]
  have hnone : 0#8 ∉ front.map (· ^^^ c) := by
    rw [zero_mem_map_xor]
    intro hmem
    obtain ⟨i, hi, hget⟩ := mem_iff_getElem.mp hmem
    obtain ⟨b, hb, hne⟩ := h i hi
    rw [hfront i hi, List.getElem?_eq_getElem hi, hget] at hb
    exact hne (some.inj hb).symm
  have hmask := zeroMask_first (rest.map (· ^^^ c))
    (by simpa only [length_append, length_map, length_cons] using hlen) hnone
  rw [length_map] at hmask
  exact hmask

/-- Searching for the zero byte needs no pattern. -/
theorem xor_mtPattern_zero (word : BitVec 64) : word ^^^ mtPattern 0#8 = word := by
  have hzero : mtPattern 0#8 = 0#64 := by decide
  rw [hzero, BitVec.xor_zero]

/-- Eight equal bytes are equal words. -/
theorem words_same (h : Same m a b 8) : ∃ word, m.loadWord a = some word ∧ m.loadWord b = some word := by
  have hmapped : m.Mapped a 8 := by
    intro i hi
    obtain ⟨c, hc, -⟩ := h i hi
    rw [hc]
    rfl
  obtain ⟨bytes, hbytes⟩ := hmapped.load
  refine ⟨ofBytes bytes, loadWord_eq hbytes, loadWord_eq (Memory.load_eq_some_iff.mpr ?_)⟩
  refine ⟨Memory.load_length hbytes, ?_⟩
  intro i hi
  obtain ⟨c, hc, hc'⟩ := h i hi
  rw [hc', ← hc]
  exact Memory.load_get hbytes hi

/-- The words at two places that differ first in byte `k`. -/
theorem words_differ (ha : m.Mapped a 8) (hb : m.Mapped b 8) (hk : k < 8) (h : Same m a b k) (hx : m (a + k) = some x)
    (hy : m (b + k) = some y) (hne : x ≠ y) :
    ∃ v w, m.loadWord a = some v ∧ m.loadWord b = some w ∧ v ≠ w ∧ (v ^^^ w).ctz.toNat / 8 = k ∧
      (v >>> (8 * k) &&& 0xff#64).toNat = x.toNat ∧ (w >>> (8 * k) &&& 0xff#64).toNat = y.toNat := by
  obtain ⟨left, hleft⟩ := ha.load
  obtain ⟨right, hright⟩ := hb.load
  obtain ⟨front, rest, rfl, hfrontlen, hfront⟩ := split_load hleft hk hx
  obtain ⟨front', rest', rfl, hfrontlen', hfront'⟩ := split_load hright hk hy
  have hsame : front' = front := by
    apply ext_getElem?
    intro i
    rcases Nat.lt_or_ge i k with hi | hi
    · obtain ⟨c, hc, hc'⟩ := h i hi
      rw [← hfront i hi, ← hfront' i hi, hc, hc']
    · rw [List.getElem?_eq_none (by omega), List.getElem?_eq_none (by omega)]
  subst hsame hfrontlen
  have hlen := Memory.load_length hleft
  have hlen' := Memory.load_length hright
  refine ⟨_, _, loadWord_eq hleft, loadWord_eq hright, ?_, xor_first hlen hlen' hne, byte_ofBytes hlen,
    byte_ofBytes hlen'⟩
  intro heq
  have hlists := ofBytes_injective hlen hlen' heq
  rw [append_cancel_left_eq, cons.injEq] at hlists
  exact hne hlists.1

/-! ## `memchr` and `memcmp` -/

/-- `memchr` finds nothing where the byte is absent. -/
theorem memchr_absent {count : ℕ} (h : Absent m (character.setWidth 8) memory count) :
    memchr m memory character count = some none := by
  rw [memchr]
  generalize character.setWidth 8 = byte at h ⊢
  apply whileBlocks_eq (fun o n => o + n = count) (fun _ _ => some none) (by decide) ?_ ?_ (Nat.zero_add _)
  · intro o n rest hcount hn hrest
    obtain ⟨word, hword, hmask⟩ := word_absent (h.sub (j := 8) (o := o) (by omega))
    simp only [bind_eq_bind, hword, bind_some]
    rw [if_neg (not_not.mpr hmask), hrest (by omega)]
  · intro o n hcount _
    apply whileBlocks_eq (fun o n => o + n = count) (fun _ _ => some none) (by decide) ?_ ?_ hcount
    · intro o n rest hcount hn hrest
      obtain ⟨b, hb, hne⟩ := h o (by omega)
      simp only [bind_eq_bind, hb, bind_some]
      rw [if_neg hne, hrest (by omega)]
    · intro _ _ _ _
      rfl

/-- The first byte that is the character ends the search, which reads no more than the block of eight bytes it is in. -/
theorem memchr_first {count : ℕ} (hi : i < count) (hc : m (memory + i) = some (character.setWidth 8))
    (h : Absent m (character.setWidth 8) memory i) (hmapped : m.Mapped memory (min count (i / 8 * 8 + 8))) :
    memchr m memory character count = some (some (memory + i)) := by
  rw [memchr]
  generalize character.setWidth 8 = byte at hc h ⊢
  apply whileBlocks_eq (fun o n => o + n = count ∧ o ≤ i ∧ o % 8 = 0) (fun _ _ => some (some (memory + i)))
    (by decide) ?_ ?_ ⟨Nat.zero_add _, Nat.zero_le _, rfl⟩
  · rintro o n rest ⟨hcount, ho, halign⟩ hn hrest
    by_cases hlast : i < o + 8
    · have hblock : m.Mapped (memory + o) 8 := by
        intro j hj
        rw [Nat.add_assoc]
        exact hmapped (o + j) (by omega)
      have hfound : m (memory + o + (i - o)) = some byte := by
        rw [Nat.add_assoc, Nat.add_sub_of_le ho]
        exact hc
      obtain ⟨word, hword, hmask, hctz⟩ := word_first hblock (by omega) hfound (h.sub (by omega))
      simp only [bind_eq_bind, hword, bind_some]
      rw [if_pos hmask, hctz, Nat.add_assoc, Nat.add_sub_of_le ho]
    · obtain ⟨word, hword, hmask⟩ := word_absent (h.sub (j := 8) (o := o) (by omega))
      simp only [bind_eq_bind, hword, bind_some]
      rw [if_neg (not_not.mpr hmask), hrest (by omega)]
  · rintro o n ⟨hcount, ho, -⟩ _
    apply whileBlocks_eq (fun o n => o + n = count ∧ o ≤ i) (fun _ _ => some (some (memory + i)))
      (by decide) ?_ ?_ ⟨hcount, ho⟩
    · rintro o n rest ⟨hcount, ho⟩ hn hrest
      rcases Nat.lt_or_eq_of_le ho with hlt | rfl
      · obtain ⟨b, hb, hne⟩ := h o hlt
        simp only [bind_eq_bind, hb, bind_some]
        rw [if_neg hne, hrest (by omega)]
      · simp only [bind_eq_bind, hc, bind_some]
        rw [if_pos trivial]
    · rintro o n ⟨hcount, ho⟩ hn
      omega

/-- `memcmp` gives zero for equal bytes. -/
theorem memcmp_same {count : ℕ} (h : Same m left right count) : memcmp m left right count = some 0 := by
  apply whileBlocks_eq (fun o n => o + n = count) (fun _ _ => some 0) (by decide) ?_ ?_ (Nat.zero_add _)
  · intro o n rest hcount hn hrest
    obtain ⟨word, hleft, hright⟩ := words_same (h.sub (j := 8) (o := o) (by omega))
    simp only [bind_eq_bind, hleft, hright, bind_some]
    rw [if_neg (not_not.mpr rfl), hrest (by omega)]
  · intro o n hcount _
    apply whileBlocks_eq (fun o n => o + n = count) (fun _ _ => some 0) (by decide) ?_ ?_ hcount
    · intro o n rest hcount hn hrest
      obtain ⟨c, hleft, hright⟩ := h o (by omega)
      simp only [bind_eq_bind, hleft, hright, bind_some]
      rw [if_neg (not_not.mpr rfl), hrest (by omega)]
    · intro _ _ _ _
      rfl

/-- The first bytes that differ decide, and the blocks of eight bytes they are in are the last that are read. -/
theorem memcmp_differ {count : ℕ} (hi : i < count) (hx : m (left + i) = some x) (hy : m (right + i) = some y)
    (hne : x ≠ y) (h : Same m left right i) (hleft : m.Mapped left (min count (i / 8 * 8 + 8)))
    (hright : m.Mapped right (min count (i / 8 * 8 + 8))) :
    memcmp m left right count = some ((x.toNat : ℤ) - (y.toNat : ℤ)) := by
  apply whileBlocks_eq (fun o n => o + n = count ∧ o ≤ i ∧ o % 8 = 0)
    (fun _ _ => some ((x.toNat : ℤ) - (y.toNat : ℤ))) (by decide) ?_ ?_ ⟨Nat.zero_add _, Nat.zero_le _, rfl⟩
  · rintro o n rest ⟨hcount, ho, halign⟩ hn hrest
    by_cases hlast : i < o + 8
    · have hblock {a : ℕ} (ha : m.Mapped a (min count (i / 8 * 8 + 8))) : m.Mapped (a + o) 8 := by
        intro j hj
        rw [Nat.add_assoc]
        exact ha (o + j) (by omega)
      have hx' : m (left + o + (i - o)) = some x := by rw [Nat.add_assoc, Nat.add_sub_of_le ho, hx]
      have hy' : m (right + o + (i - o)) = some y := by rw [Nat.add_assoc, Nat.add_sub_of_le ho, hy]
      obtain ⟨v, w, hv, hw, hvw, hctz, hvx, hwy⟩ :=
        words_differ (hblock hleft) (hblock hright) (by omega) (h.sub (by omega)) hx' hy' hne
      simp only [bind_eq_bind, hv, hw, bind_some]
      rw [if_pos hvw, hctz, Nat.mul_comm, hvx, hwy]
    · obtain ⟨word, hl, hr⟩ := words_same (h.sub (j := 8) (o := o) (by omega))
      simp only [bind_eq_bind, hl, hr, bind_some]
      rw [if_neg (not_not.mpr rfl), hrest (by omega)]
  · rintro o n ⟨hcount, ho, -⟩ _
    apply whileBlocks_eq (fun o n => o + n = count ∧ o ≤ i) (fun _ _ => some ((x.toNat : ℤ) - (y.toNat : ℤ)))
      (by decide) ?_ ?_ ⟨hcount, ho⟩
    · rintro o n rest ⟨hcount, ho⟩ hn hrest
      rcases Nat.lt_or_eq_of_le ho with hlt | rfl
      · obtain ⟨c, hl, hr⟩ := h o hlt
        simp only [bind_eq_bind, hl, hr, bind_some]
        rw [if_neg (not_not.mpr rfl), hrest (by omega)]
      · simp only [bind_eq_bind, hx, hy, bind_some]
        rw [if_pos hne]
    · rintro o n ⟨hcount, ho⟩ hn
      omega

end

end Mettle.Runtime

import Mettle.Lib.Blocks
import Mettle.Lib.ByteWords

/-!
# Memory and string routines

`memset` to `strstr` of `runtime/freestanding.c`, on a memory where not every address is mapped: `none` is a fault. A
pointer is its address, `char *` results are `none` for `MT_NULL`. The loops over strings have no bound in the source;
they run here on fuel.
-/

namespace Mettle.Runtime

open Mettle.Lib

/-- `mt_word_zero_mask`. -/
def mtWordZeroMask (word : BitVec 64) : BitVec 64 :=
  (word - 0x0101010101010101#64) &&& ~~~word &&& 0x8080808080808080#64

/-- The byte repeated over a word, `(mt_u64)byte * MT_WORD_ONES`. -/
def mtPattern (byte : BitVec 8) : BitVec 64 := byte.setWidth 64 * 0x0101010101010101#64

/-- `__builtin_ctzll(word) >> 3`. -/
def ctzByte (word : BitVec 64) : ℕ := word.ctz.toNat / 8

/-! ## Memory -/

/-- `memset`. -/
def memset (m : Memory) (destination : ℕ) (value : BitVec 32) (count : ℕ) : Option (ℕ × Memory) :=
  let byte := value.setWidth 8
  let pattern := mtPattern byte
  whileBlocks 32
    (fun o rest m => do
      let m ← m.storeWord (destination + o) pattern
      let m ← m.storeWord (destination + o + 8) pattern
      let m ← m.storeWord (destination + o + 16) pattern
      let m ← m.storeWord (destination + o + 24) pattern
      rest m)
    (whileBlocks 8
      (fun o rest m => do
        let m ← m.storeWord (destination + o) pattern
        rest m)
      (whileBlocks 1
        (fun o rest m => do
          let m ← m.store (destination + o) [byte]
          rest m)
        fun _ _ m => some (destination, m)))
    0 count m

/-- `memcpy`. -/
def memcpy (m : Memory) (destination source count : ℕ) : Option (ℕ × Memory) :=
  whileBlocks 32
    (fun o rest m => do
      let a ← m.loadWord (source + o)
      let b ← m.loadWord (source + o + 8)
      let c ← m.loadWord (source + o + 16)
      let d ← m.loadWord (source + o + 24)
      let m ← m.storeWord (destination + o) a
      let m ← m.storeWord (destination + o + 8) b
      let m ← m.storeWord (destination + o + 16) c
      let m ← m.storeWord (destination + o + 24) d
      rest m)
    (whileBlocks 8
      (fun o rest m => do
        let a ← m.loadWord (source + o)
        let m ← m.storeWord (destination + o) a
        rest m)
      (whileBlocks 1
        (fun o rest m => do
          let a ← m (source + o)
          let m ← m.store (destination + o) [a]
          rest m)
        fun _ _ m => some (destination, m)))
    0 count m

/-- `memmove`. -/
def memmove (m : Memory) (destination source count : ℕ) : Option (ℕ × Memory) :=
  if destination = source ∨ count = 0 then some (destination, m)
  else if destination < source ∨ source + count ≤ destination then memcpy m destination source count
  else
    whileBack 8
      (fun n rest m => do
        let a ← m.loadWord (source + n)
        let m ← m.storeWord (destination + n) a
        rest m)
      (whileBack 1
        (fun n rest m => do
          let a ← m (source + n)
          let m ← m.store (destination + n) [a]
          rest m)
        fun _ m => some (destination, m))
      count m

/-- `memchr`. -/
def memchr (m : Memory) (memory : ℕ) (character : BitVec 32) (count : ℕ) : Option (Option ℕ) :=
  let byte := character.setWidth 8
  let pattern := mtPattern byte
  whileBlocks 8
    (fun o rest => do
      let word ← m.loadWord (memory + o)
      let hit := mtWordZeroMask (word ^^^ pattern)
      if hit ≠ 0#64 then some (some (memory + o + ctzByte hit)) else rest)
    (whileBlocks 1
      (fun o rest => do
        let b ← m (memory + o)
        if b = byte then some (some (memory + o)) else rest)
      fun _ _ => some none)
    0 count

/-- `memcmp`. -/
def memcmp (m : Memory) (left right count : ℕ) : Option ℤ :=
  whileBlocks 8
    (fun o rest => do
      let x ← m.loadWord (left + o)
      let y ← m.loadWord (right + o)
      if x ≠ y then
        -- the number of trailing zeros, its lowest three bits cleared
        let lane := (x ^^^ y).ctz.toNat / 8 * 8
        some (((x >>> lane &&& 0xff#64).toNat : ℤ) - ((y >>> lane &&& 0xff#64).toNat : ℤ))
      else rest)
    (whileBlocks 1
      (fun o rest => do
        let a ← m (left + o)
        let b ← m (right + o)
        if a ≠ b then some ((a.toNat : ℤ) - (b.toNat : ℤ)) else rest)
      fun _ _ => some 0)
    0 count

/-! ## Strings -/

/-- `strlen`. -/
def strlen (fuel : ℕ) (m : Memory) (text : ℕ) : Option ℕ :=
  if text = 0 then some 0
  else
    whileUnaligned 8
      (fun cursor rest => do
        let b ← m cursor
        if b = 0#8 then some (cursor - text) else rest)
      (forever 8 none
        (fun cursor rest => do
          let word ← m.loadWord cursor
          let zero := mtWordZeroMask word
          if zero ≠ 0#64 then some (cursor - text + ctzByte zero) else rest)
        fuel)
      text

/-- The loop at the end of `strcmp`, from an offset of both strings on. -/
def strcmpBytes (fuel : ℕ) (m : Memory) (left right offset : ℕ) : Option ℤ :=
  forever 1 none
    (fun i rest => do
      let a ← m (left + i)
      let b ← m (right + i)
      if a ≠ 0#8 ∧ a = b then rest else some ((a.toNat : ℤ) - (b.toNat : ℤ)))
    fuel offset

/-- `strcmp`. The two pointers move together; `right` is as far from its start as `left` is. -/
def strcmp (fuel : ℕ) (m : Memory) (left right : ℕ) : Option ℤ :=
  if left % 8 = right % 8 then
    whileUnaligned 8
      (fun cursor rest => do
        let a ← m cursor
        let b ← m (right + (cursor - left))
        if a ≠ b ∨ a = 0#8 then some ((a.toNat : ℤ) - (b.toNat : ℤ)) else rest)
      (forever 8 none
        (fun cursor rest => do
          let x ← m.loadWord cursor
          let y ← m.loadWord (right + (cursor - left))
          if x ≠ y ∨ mtWordZeroMask x ≠ 0#64 then strcmpBytes fuel m left right (cursor - left) else rest)
        fuel)
      left
  else strcmpBytes fuel m left right 0

/-- `strncmp`. -/
def strncmp (m : Memory) (left right count : ℕ) : Option ℤ :=
  whileBlocks 1
    (fun i rest => do
      let a ← m (left + i)
      let b ← m (right + i)
      if a ≠ b ∨ a = 0#8 then some ((a.toNat : ℤ) - (b.toNat : ℤ)) else rest)
    (fun _ _ => some 0) 0 count

/-- `strchr`. -/
def strchr (fuel : ℕ) (m : Memory) (text : ℕ) (character : BitVec 32) : Option (Option ℕ) :=
  let wanted := character.setWidth 8
  let pattern := mtPattern wanted
  whileUnaligned 8
    (fun text rest => do
      let b ← m text
      if b = wanted then some (some text) else if b = 0#8 then some none else rest)
    (forever 8 none
      (fun text rest => do
        let word ← m.loadWord text
        let zero := mtWordZeroMask word
        let hit := mtWordZeroMask (word ^^^ pattern)
        if hit ||| zero ≠ 0#64 then
          if hit ≠ 0#64 ∧ (zero = 0#64 ∨ hit.ctz.toNat ≤ zero.ctz.toNat) then some (some (text + ctzByte hit))
          else some none
        else rest)
      fuel)
    text

/-- The loop of `strstr`. -/
def strstrLoop (m : Memory) (part : ℕ) (first : BitVec 8) (rest : ℕ) : ℕ → ℕ → Option (Option ℕ)
  | 0, _ => none
  | fuel + 1, text => do
    match ← strchr (fuel + 1) m text (first.signExtend 32) with
    | none => some none
    | some text =>
      let order ← strncmp m (text + 1) (part + 1) rest
      if order = 0 then some (some text) else strstrLoop m part first rest fuel (text + 1)

/-- `strstr`. -/
def strstr (fuel : ℕ) (m : Memory) (text part : ℕ) : Option (Option ℕ) := do
  let first ← m part
  if first = 0#8 then some (some text)
  else
    let rest ← strlen fuel m (part + 1)
    strstrLoop m part first rest fuel text

end Mettle.Runtime

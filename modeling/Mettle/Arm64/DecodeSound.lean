import Mettle.Arm64.Decode

/-!
# The decoder on the encoders' words

For the operands of their fields, the words of all but six encoders are read back as they were encoded or not
recognised. `mvn` and `tst` are read as `orr`, the byte and halfword loads and stores as those of words.
-/

namespace Mettle.Arm64

/-! ## The tests of the decoder -/

section

variable {w : BitVec 32}

/-- The mask of the branches to a register keeps the upper bits. -/
theorem div_of_and {c : BitVec 32} (h : w &&& 0xFFFFFC1F = c) : w.toNat / 2 ^ 21 = c.toNat / 2 ^ 21 := by
  have hlt := w.isLt
  rw [← h, BitVec.toNat_and, Nat.and_div_two_pow]
  show _ = _ &&& (2 ^ 11 - 1)
  rw [Nat.and_two_pow_sub_one_eq_mod]
  omega

/-- What is no branch through a register is decoded by its fields. -/
theorem decode_eq_fields (h : w.toNat / 2 ^ 21 ≠ 0x6A8 ∧ w.toNat / 2 ^ 21 ≠ 0x6B0 ∧ w.toNat / 2 ^ 21 ≠ 0x6B1 ∧
    w.toNat / 2 ^ 21 ≠ 0x6B2) : decode w = decodeFields w := by
  unfold decode
  rw [if_neg, if_neg, if_neg, if_neg]
  · exact fun hw => h.2.2.2 (div_of_and hw)
  · exact fun hw => h.2.2.1 (div_of_and hw)
  · exact fun hw => h.2.1 (div_of_and hw)
  · rintro rfl
    exact h.1 rfl

/-- A jump through a register. -/
theorem decode_br (h : w &&& 0xFFFFFC1F = 0xD61F0000) : decode w = { rawFields w with op := .br } := by
  unfold decode
  rw [if_neg, if_pos h]
  rintro rfl
  exact absurd h (by decide)

/-- A call through a register. -/
theorem decode_blr (h : w &&& 0xFFFFFC1F = 0xD63F0000) : decode w = { rawFields w with op := .blr } := by
  unfold decode
  rw [if_neg, if_neg (by rw [h]; decide), if_pos h]
  rintro rfl
  exact absurd h (by decide)

/-- A return through a register. -/
theorem decode_ret (h : w &&& 0xFFFFFC1F = 0xD65F0000) : decode w = { rawFields w with op := .ret } := by
  unfold decode
  rw [if_neg, if_neg (by rw [h]; decide), if_neg (by rw [h]; decide), if_pos h]
  rintro rfl
  exact absurd h (by decide)

/-- A move of an immediate of 16 bits. -/
theorem decode_movWide (h : w.toNat / 2 ^ 23 % 64 = 0x25) :
    decode w = { rawFields w with
      imm := bits w 5 16
      op := if bits w 29 2 = 0 then .movn else if bits w 29 2 = 2 then .movz else .movk } := by
  rw [decode_eq_fields (by omega)]
  unfold decodeFields
  rw [if_pos (by rw [bits_eq]; exact h)]

/-- An addition or subtraction of an immediate. -/
theorem decode_imm12 (h : w.toNat / 2 ^ 23 % 64 = 0x22) :
    decode w = { rawFields w with
      imm := bits w 10 12 * (if bits w 22 1 = 1 then 2 ^ 12 else 1)
      op := if bits w 29 1 = 1 then .subsImm else if bits w 30 1 = 1 then .subImm else .addImm } := by
  rw [decode_eq_fields (by omega)]
  unfold decodeFields
  simp only [bits_eq w 23 6]
  rw [if_neg (by omega), if_pos (by omega)]

/-- A bit-field move; both signed forms are taken for `SBFM`. -/
theorem decode_bitField (h : w.toNat / 2 ^ 23 % 64 = 0x26) :
    decode w = { rawFields w with op := if bits w 29 2 = 0 then .sbfm else .ubfm } := by
  rw [decode_eq_fields (by omega)]
  unfold decodeFields
  simp only [bits_eq w 23 6]
  rw [if_neg (by omega), if_neg (by omega), if_pos (by omega)]

/-- A logical operation on registers; a set `N` bit is only seen with `ORR`. -/
theorem decode_logical (h : w.toNat / 2 ^ 24 % 32 = 0x0A) :
    decode w = { rawFields w with
      op := if bits w 29 2 = 1 ∧ bits w 21 1 = 0 then if (rawFields w).rn = 31 then .mov else .orrReg
        else if bits w 29 2 = 0 then .andReg else if bits w 29 2 = 2 then .eorReg else .orrReg } := by
  rw [decode_eq_fields (by omega)]
  unfold decodeFields
  simp only [bits_eq w 23 6, bits_eq w 24 5]
  rw [if_neg (by omega), if_neg (by omega), if_neg (by omega), if_pos (by omega)]

/-- An addition or subtraction of registers. -/
theorem decode_addSub (h : w.toNat / 2 ^ 24 % 32 = 0x0B) :
    decode w = { rawFields w with
      op := if bits w 29 1 = 1 then .subsReg else if bits w 30 1 = 1 then .subReg else .addReg } := by
  rw [decode_eq_fields (by omega)]
  unfold decodeFields
  simp only [bits_eq w 23 6, bits_eq w 24 5]
  rw [if_neg (by omega), if_neg (by omega), if_neg (by omega), if_neg (by omega), if_pos (by omega)]

/-- A multiplication with a third operand. -/
theorem decode_multiply (h : w.toNat / 2 ^ 24 % 32 = 0x1B) (h' : w.toNat / 2 ^ 29 % 4 = 0) :
    decode w = { rawFields w with op := if bits w 15 1 = 1 then .msub else .madd } := by
  rw [decode_eq_fields (by omega)]
  unfold decodeFields
  simp only [bits_eq w 23 6, bits_eq w 24 5, bits_eq w 29 2]
  rw [if_neg (by omega), if_neg (by omega), if_neg (by omega), if_neg (by omega), if_neg (by omega), if_pos (by omega)]

/-- A division or a shift by a register. -/
theorem decode_twoSource (h : w.toNat / 2 ^ 21 % 256 = 0xD6) :
    decode w = { rawFields w with
      op := match bits w 10 6 with
        | 0x02 => .udiv
        | 0x03 => .sdiv
        | 0x08 => .lslv
        | 0x09 => .lsrv
        | 0x0A => .asrv
        | _ => .unknown } := by
  rw [decode_eq_fields (by omega)]
  unfold decodeFields
  simp only [bits_eq w 23 6, bits_eq w 24 5, bits_eq w 29 2, bits_eq w 21 8]
  rewrite [if_neg (by omega), if_neg (by omega), if_neg (by omega), if_neg (by omega), if_neg (by omega),
    if_neg (by omega), if_pos (by omega)]
  rfl

/-- A conditional select. -/
theorem decode_select (h : w.toNat / 2 ^ 21 % 256 = 0xD4) :
    decode w = { rawFields w with cond := bits w 12 4, op := if bits w 10 2 = 1 then .csinc else .csel } := by
  rw [decode_eq_fields (by omega)]
  unfold decodeFields
  simp only [bits_eq w 23 6, bits_eq w 24 5, bits_eq w 29 2, bits_eq w 21 8]
  rw [if_neg (by omega), if_neg (by omega), if_neg (by omega), if_neg (by omega), if_neg (by omega),
    if_neg (by omega), if_neg (by omega), if_pos (by omega)]

/-- A load or a store with an offset, of which the decoder does not look at all the size bits. -/
theorem decode_offset (h : w.toNat / 2 ^ 24 % 64 = 0x39) :
    decode w = { rawFields w with
      is64 := bits w 30 2 = 3
      imm := bits w 10 12 * (if bits w 30 2 = 3 then 8 else 4)
      op := if bits w 22 2 = 0 then .strImm else .ldrImm } := by
  rw [decode_eq_fields (by omega)]
  unfold decodeFields
  simp only [bits_eq w 23 6, bits_eq w 24 5, bits_eq w 29 2, bits_eq w 21 8, bits_eq w 27 3, bits_eq w 26 1,
    bits_eq w 24 2]
  rw [if_neg (by omega), if_neg (by omega), if_neg (by omega), if_neg (by omega), if_neg (by omega),
    if_neg (by omega), if_neg (by omega), if_neg (by omega), if_pos (by omega)]

/-- A load or a store of a pair. -/
theorem decode_pair (h : w.toNat / 2 ^ 25 % 32 = 0x14) :
    decode w = { rawFields w with
      is64 := bits w 30 2 = 2
      imm := signExtend (bits w 15 7) 7 * (if bits w 30 2 = 2 then 8 else 4)
      op := if bits w 22 1 = 1 then .ldp else .stp } := by
  rw [decode_eq_fields (by omega)]
  unfold decodeFields
  simp only [bits_eq w 23 6, bits_eq w 24 5, bits_eq w 29 2, bits_eq w 21 8, bits_eq w 27 3, bits_eq w 26 1,
    bits_eq w 24 2]
  rw [if_neg (by omega), if_neg (by omega), if_neg (by omega), if_neg (by omega), if_neg (by omega),
    if_neg (by omega), if_neg (by omega), if_neg (by omega), if_neg (by omega), if_pos (by omega)]

/-- The words the first nine tests of bit fields pass over. -/
theorem decodeFields_branch (h : w.toNat / 2 ^ 26 % 8 = 5) :
    decodeFields w =
      if bits w 25 6 = 0x1A then
        { rawFields w with imm := signExtend (bits w 5 19) 19 * 4, op := if bits w 24 1 = 1 then .cbnz else .cbz }
      else if bits w 24 8 = 0x54 then
        { rawFields w with cond := bits w 0 4, imm := signExtend (bits w 5 19) 19 * 4, op := .bcond }
      else if bits w 26 6 = 0x05 then { rawFields w with imm := signExtend (bits w 0 26) 26 * 4, op := .b }
      else if bits w 26 6 = 0x25 then { rawFields w with imm := signExtend (bits w 0 26) 26 * 4, op := .bl }
      else rawFields w := by
  unfold decodeFields
  simp only [bits_eq w 23 6, bits_eq w 24 5, bits_eq w 29 2, bits_eq w 21 8, bits_eq w 27 3, bits_eq w 26 1,
    bits_eq w 24 2]
  rw [if_neg (by omega), if_neg (by omega), if_neg (by omega), if_neg (by omega), if_neg (by omega),
    if_neg (by omega), if_neg (by omega), if_neg (by omega), if_neg (by omega), if_neg (by omega)]

/-- A branch on a register. -/
theorem decode_compareBranch (h : w.toNat / 2 ^ 25 % 64 = 0x1A) :
    decode w = { rawFields w with
      imm := signExtend (bits w 5 19) 19 * 4, op := if bits w 24 1 = 1 then .cbnz else .cbz } := by
  rw [decode_eq_fields (by omega), decodeFields_branch (by omega), if_pos (by rw [bits_eq]; exact h)]

/-- A conditional branch. -/
theorem decode_condBranch (h : w.toNat / 2 ^ 24 = 0x54) :
    decode w = { rawFields w with
      cond := bits w 0 4, imm := signExtend (bits w 5 19) 19 * 4, op := .bcond } := by
  rw [decode_eq_fields (by omega), decodeFields_branch (by omega)]
  simp only [bits_eq w 25 6, bits_eq w 24 8]
  rw [if_neg (by omega), if_pos (by omega)]

/-- A jump. -/
theorem decode_branch (h : w.toNat / 2 ^ 26 = 0x05) :
    decode w = { rawFields w with imm := signExtend (bits w 0 26) 26 * 4, op := .b } := by
  rw [decode_eq_fields (by omega), decodeFields_branch (by omega)]
  simp only [bits_eq w 25 6, bits_eq w 24 8, bits_eq w 26 6]
  rw [if_neg (by omega), if_neg (by omega), if_pos (by omega)]

/-- A call. -/
theorem decode_branchLink (h : w.toNat / 2 ^ 26 = 0x25) :
    decode w = { rawFields w with imm := signExtend (bits w 0 26) 26 * 4, op := .bl } := by
  rw [decode_eq_fields (by omega), decodeFields_branch (by omega)]
  simp only [bits_eq w 25 6, bits_eq w 24 8, bits_eq w 26 6]
  rw [if_neg (by omega), if_neg (by omega), if_neg (by omega), if_pos (by omega)]

/-- The decoder knows no floating point. -/
theorem decode_float (h : w.toNat / 2 ^ 24 % 32 = 0x1E ∨ w.toNat / 2 ^ 24 % 64 = 0x3D) : decode w = rawFields w := by
  rw [decode_eq_fields (by omega)]
  unfold decodeFields
  simp only [bits_eq w 23 6, bits_eq w 24 5, bits_eq w 29 2, bits_eq w 21 8, bits_eq w 27 3, bits_eq w 26 1,
    bits_eq w 24 2, bits_eq w 25 6, bits_eq w 24 8, bits_eq w 26 6]
  rw [if_neg (by omega), if_neg (by omega), if_neg (by omega), if_neg (by omega), if_neg (by omega),
    if_neg (by omega), if_neg (by omega), if_neg (by omega), if_neg (by omega), if_neg (by omega),
    if_neg (by omega), if_neg (by omega), if_neg (by omega), if_neg (by omega)]

end

/-! ## Signed fields -/

/-- Flipping the top bit of a field moves its values by half the field. -/
theorem xor_half {v k : ℕ} (h : v < 2 ^ (k + 1)) :
    (v ^^^ 2 ^ k : ℕ) = if v < 2 ^ k then v + 2 ^ k else v - 2 ^ k := by
  have hsplit := Nat.div_add_mod (v ^^^ 2 ^ k) (2 ^ k)
  have hv := Nat.div_add_mod v (2 ^ k)
  rw [Nat.xor_div_two_pow, Nat.xor_mod_two_pow, Nat.div_self (Nat.two_pow_pos k), Nat.mod_self, Nat.xor_zero]
    at hsplit
  have hlt : v / 2 ^ k < 2 := by
    rw [Nat.div_lt_iff_lt_mul (Nat.two_pow_pos k), Nat.mul_comm, ← pow_succ]
    exact h
  rcases Nat.lt_or_ge v (2 ^ k) with hlow | hhigh
  · rw [Nat.div_eq_of_lt hlow] at hsplit hv
    rw [if_pos hlow, ← hsplit]
    show 2 ^ k * 1 + _ = _
    omega
  · have hone : v / 2 ^ k = 1 := by
      have := Nat.div_pos hhigh (Nat.two_pow_pos k)
      omega
    rw [hone] at hsplit hv
    rw [if_neg (by omega), ← hsplit]
    show 2 ^ k * 0 + _ = _
    omega

/-- Reading a signed field gives back the number it was cut from. -/
theorem signExtend_field {x : ℤ} {k : ℕ} (hlo : -2 ^ k ≤ x) (hhi : x < 2 ^ k) :
    signExtend (x % 2 ^ (k + 1)).toNat (k + 1) = x := by
  have hpow : (2 : ℤ) ^ (k + 1) = 2 * 2 ^ k := by ring
  have hpos : (0 : ℤ) < 2 ^ k := by positivity
  have hcast : ((2 ^ k : ℕ) : ℤ) = 2 ^ k := by push_cast; rfl
  have hlt : (x % 2 ^ (k + 1)).toNat < 2 ^ (k + 1) := by omega
  have hmod : x % 2 ^ (k + 1) = if 0 ≤ x then x else x + 2 ^ (k + 1) := by
    split
    · exact Int.emod_eq_of_lt (by assumption) (by omega)
    · rw [← Int.add_emod_right]
      exact Int.emod_eq_of_lt (by omega) (by omega)
  unfold signExtend
  rw [Nat.mod_eq_of_lt hlt, Nat.add_sub_cancel, xor_half hlt, hmod]
  split <;> split <;> push_cast <;> omega

end Mettle.Arm64

import Mettle.Arm64.DecodeSound

/-!
# What the decoder reads in each family of words

A family shares the places of its operands; the base word tells its members apart. Each lemma says what the
decoder reads in the words of a family from tests of the base word alone.
-/

namespace Mettle.Arm64

variable {base : BitVec 32} {rd rn rm ra : ℤ}

/-- Words that agree from a bit on have the same fields there. -/
theorem bits_above {w : BitVec 32} {k lo : ℕ} (h : w.toNat / 2 ^ k = base.toNat / 2 ^ k) (hk : k ≤ lo) (n : ℕ) :
    bits w lo n = bits base lo n := by
  have hdiv (v : BitVec 32) : v.toNat / 2 ^ lo = v.toNat / 2 ^ k / 2 ^ (lo - k) := by
    rw [Nat.div_div_eq_div_mul, ← pow_add, Nat.add_sub_cancel' hk]
  rw [bits_eq, bits_eq, hdiv w, hdiv base, h]

/-! ## Three registers -/

section

variable (hlow : base.toNat % 2 ^ 10 = 0) (hmid : base.toNat / 2 ^ 16 % 2 ^ 5 = 0) (hd : IsReg rd) (hn : IsReg rn)
  (hm : IsReg rm)
include hlow hmid hd hn hm

/-- An encoding with three registers as a number: the fields do not overlap. -/
theorem reg3_toNat :
    (reg3 base rd rn rm).toNat = base.toNat + rm.toNat * 2 ^ 16 + rn.toNat * 2 ^ 5 + rd.toNat * 2 ^ 0 := by
  have h₁ : (base ||| R5 rm 16).toNat = _ := or_R5_toNat hm (by decide) hmid
  have h₂ : (base ||| R5 rm 16 ||| R5 rn 5).toNat = _ := or_R5_toNat hn (by decide) (by omega)
  have hm' := hm.2
  have hn' := hn.2
  have h₃ : (reg3 base rd rn rm).toNat = _ := or_R5_toNat hd (by decide) (by omega)
  rw [h₃, h₂, h₁]

/-- What the decoder's fields of such an encoding are: those of the base and the three registers. -/
theorem reg3_bits :
    (reg3 base rd rn rm).toNat / 2 ^ 21 = base.toNat / 2 ^ 21 ∧
      bits (reg3 base rd rn rm) 10 6 = bits base 10 6 ∧ (bits (reg3 base rd rn rm) 0 5 : ℤ) = rd ∧
      (bits (reg3 base rd rn rm) 5 5 : ℤ) = rn ∧ (bits (reg3 base rd rn rm) 16 5 : ℤ) = rm := by
  have hw := reg3_toNat hlow hmid hd hn hm
  unfold IsReg at hd hn hm
  refine ⟨by omega, ?_, ?_, ?_, ?_⟩
  all_goals
    simp only [bits_eq, hw]
    omega

/-- An operation on three registers. -/
def Reads3 (op : DisOp) (is64 : Bool) (rd rn rm : ℤ) (d : Inst) : Prop :=
  d.op = op ∧ d.is64 = is64 ∧ d.rd = rd ∧ d.rn = rn ∧ d.rm = rm

variable {op : DisOp} {is64 : Bool} (h64 : decide (bits base 31 1 = 1) = is64)
include h64

/-- Once the opcode is right, so are the registers. -/
theorem reads3_of_op {op' : DisOp} (hop : op' = op) :
    Reads3 op is64 rd rn rm { rawFields (reg3 base rd rn rm) with op := op' } := by
  obtain ⟨hdiv, _, hrd, hrn, hrm⟩ := reg3_bits hlow hmid hd hn hm
  refine ⟨hop, ?_, hrd, hrn, hrm⟩
  rw [← h64, ← bits_above hdiv (by decide) 1]
  rfl

/-- Additions and subtractions of registers are decoded as they were encoded. -/
theorem addSub_reads (hclass : base.toNat / 2 ^ 24 % 32 = 0x0B)
    (hop : (if bits base 29 1 = 1 then .subsReg else if bits base 30 1 = 1 then .subReg else .addReg) = op) :
    Reads3 op is64 rd rn rm (decode (reg3 base rd rn rm)) := by
  obtain ⟨hdiv, _⟩ := reg3_bits hlow hmid hd hn hm
  rw [decode_addSub (by omega)]
  apply reads3_of_op hlow hmid hd hn hm h64
  rw [bits_above hdiv (by decide) 1, bits_above hdiv (by decide) 1]
  exact hop

/-- So are the logical operations on registers, of which `ORR` from the zero register reads as a move. -/
theorem logical_reads (hclass : base.toNat / 2 ^ 24 % 32 = 0x0A)
    (hop : (if bits base 29 2 = 1 ∧ bits base 21 1 = 0 then if rn = 31 then .mov else .orrReg
      else if bits base 29 2 = 0 then .andReg else if bits base 29 2 = 2 then .eorReg else .orrReg) = op) :
    Reads3 op is64 rd rn rm (decode (reg3 base rd rn rm)) := by
  obtain ⟨hdiv, _, _, hrn, _⟩ := reg3_bits hlow hmid hd hn hm
  rw [decode_logical (by omega)]
  apply reads3_of_op hlow hmid hd hn hm h64
  rw [bits_above hdiv (by decide) 2, bits_above hdiv (by decide) 1, show (rawFields (reg3 base rd rn rm)).rn = rn from hrn]
  exact hop

/-- So are the divisions and the shifts by a register. -/
theorem twoSource_reads (hclass : base.toNat / 2 ^ 21 % 256 = 0xD6)
    (hop : (match bits base 10 6 with
      | 0x02 => .udiv
      | 0x03 => .sdiv
      | 0x08 => .lslv
      | 0x09 => .lsrv
      | 0x0A => .asrv
      | _ => .unknown) = op) :
    Reads3 op is64 rd rn rm (decode (reg3 base rd rn rm)) := by
  obtain ⟨hdiv, hmidBits, _⟩ := reg3_bits hlow hmid hd hn hm
  rw [decode_twoSource (by omega)]
  apply reads3_of_op hlow hmid hd hn hm h64
  rw [hmidBits]
  exact hop

omit h64 in
/-- Floating point with three registers. -/
theorem float3_unknown (hclass : base.toNat / 2 ^ 24 % 32 = 0x1E) : (decode (reg3 base rd rn rm)).op = .unknown := by
  obtain ⟨hdiv, _⟩ := reg3_bits hlow hmid hd hn hm
  rw [decode_float (.inl (by omega))]
  rfl

end

/-! ## Two registers: floating point -/

/-- The disassembler does not know the instructions on floating-point registers. -/
theorem float2_unknown (hlow : base.toNat % 2 ^ 10 = 0) (hd : IsReg rd) (hn : IsReg rn)
    (hclass : base.toNat / 2 ^ 24 % 32 = 0x1E) : (decode (reg2 base rd rn)).op = .unknown := by
  have h₁ : (base ||| R5 rn 5).toNat = _ := or_R5_toNat hn (by decide) (by omega)
  have h₂ : (reg2 base rd rn).toNat = _ := or_R5_toNat hd (by decide) (by omega)
  unfold IsReg at hd hn
  rw [decode_float (.inl (by omega))]
  rfl

/-! ## Wide moves -/

/-- A move of sixteen bits. -/
def ReadsWide (op : DisOp) (is64 : Bool) (rd imm16 hw : ℤ) (d : Inst) : Prop :=
  d.op = op ∧ d.is64 = is64 ∧ d.rd = rd ∧ d.imm = imm16 ∧ d.hw = hw

/-- The moves of an immediate of 16 bits. -/
theorem movWide_reads {imm16 hw : ℤ} {op : DisOp} {is64 : Bool} (hlow : base.toNat % 2 ^ 23 = 0)
    (hclass : base.toNat / 2 ^ 23 % 64 = 0x25) (h64 : decide (bits base 31 1 = 1) = is64)
    (hop : (if bits base 29 2 = 0 then .movn else if bits base 29 2 = 2 then .movz else .movk) = op)
    (hd : IsReg rd) (himm : 0 ≤ imm16 ∧ imm16 < 2 ^ 16) (hhw : 0 ≤ hw ∧ hw < 4) :
    ReadsWide op is64 rd imm16 hw (decode (movWide base rd imm16 hw)) := by
  have h₁ : (base ||| field hw 3 21).toNat = _ := or_unsigned_toNat (n := 2) hhw.1 hhw.2 rfl (by decide) (by omega)
  have h₂ : (base ||| field hw 3 21 ||| field imm16 0xFFFF 5).toNat = _ :=
    or_unsigned_toNat (n := 16) himm.1 himm.2 rfl (by decide) (by omega)
  have hw' : (movWide base rd imm16 hw).toNat = _ := or_R5_toNat hd (by decide) (by omega)
  rw [h₂, h₁] at hw'
  unfold IsReg at hd
  have hdiv : (movWide base rd imm16 hw).toNat / 2 ^ 23 = base.toNat / 2 ^ 23 := by omega
  rw [decode_movWide (by omega)]
  refine ⟨?_, ?_, ?_, ?_, ?_⟩
  · rw [← hop, ← bits_above hdiv (by decide) 2]
  · rw [← h64, ← bits_above hdiv (by decide) 1]
    rfl
  all_goals
    simp only [rawFields, bits_eq, hw']
    omega

/-! ## Twelve-bit immediates -/

/-- An operation on a register and an immediate. -/
def ReadsImm (op : DisOp) (is64 : Bool) (rd rn imm : ℤ) (d : Inst) : Prop :=
  d.op = op ∧ d.is64 = is64 ∧ d.rd = rd ∧ d.rn = rn ∧ d.imm = imm

/-- Additions and subtractions of an immediate of 12 bits, shifted or not. -/
theorem imm12_reads {imm12 : ℤ} {shift12 : Bool} {op : DisOp} {is64 : Bool} (hlow : base.toNat % 2 ^ 23 = 0)
    (hclass : base.toNat / 2 ^ 23 % 64 = 0x22) (h64 : decide (bits base 31 1 = 1) = is64)
    (hop : (if bits base 29 1 = 1 then .subsImm else if bits base 30 1 = 1 then .subImm else .addImm) = op)
    (hd : IsReg rd) (hn : IsReg rn) (himm : 0 ≤ imm12 ∧ imm12 < 2 ^ 12) :
    ReadsImm op is64 rd rn (imm12 * (if shift12 then 2 ^ 12 else 1)) (decode (imm12Op base rd rn imm12 shift12)) := by
  obtain ⟨sh, hsh, hbit⟩ : ∃ sh : ℤ, sh = (if shift12 then 1 else 0) ∧
      (if shift12 then (1 : BitVec 32) <<< 22 else 0) = field sh 1 22 := by
    refine ⟨_, rfl, ?_⟩
    cases shift12 <;> rfl
  have hbool : 0 ≤ sh ∧ sh < 2 := by
    rw [hsh]
    split <;> decide
  -- one field after another is set; none overlaps what stands above it
  have h₀ : (base ||| field sh 1 22).toNat = _ :=
    or_unsigned_toNat (n := 1) hbool.1 hbool.2 rfl (by decide) (by omega)
  have h₁ : (base ||| field sh 1 22 ||| field imm12 0xFFF 10).toNat = _ :=
    or_unsigned_toNat (n := 12) himm.1 himm.2 rfl (by decide) (by omega)
  have h₂ : (base ||| field sh 1 22 ||| field imm12 0xFFF 10 ||| R5 rn 5).toNat = _ :=
    or_R5_toNat hn (by decide) (by omega)
  unfold IsReg at hn
  have hw : (base ||| field sh 1 22 ||| field imm12 0xFFF 10 ||| R5 rn 5 ||| R5 rd 0).toNat = _ :=
    or_R5_toNat hd (by decide) (by omega)
  rw [h₂, h₁, h₀] at hw
  rw [imm12Op, hbit]
  -- the word is now a number with known quotient and remainder, which the decoder's fields read off
  generalize base ||| field sh 1 22 ||| field imm12 0xFFF 10 ||| R5 rn 5 ||| R5 rd 0 = w at hw ⊢
  unfold IsReg at hd
  have hdiv : w.toNat / 2 ^ 23 = base.toNat / 2 ^ 23 := by omega
  rw [decode_imm12 (by omega)]
  refine ⟨?_, ?_, ?_, ?_, ?_⟩
  · rw [← hop, ← bits_above hdiv (by decide) 1, ← bits_above hdiv (by decide) 1]
  · rw [← h64, ← bits_above hdiv (by decide) 1]
    rfl
  · simp only [rawFields, bits_eq, hw]
    omega
  · simp only [rawFields, bits_eq, hw]
    omega
  · have himmBits : (bits w 10 12 : ℤ) = imm12 := by
      rw [bits_eq, hw]
      omega
    have hshift : (bits w 22 1 : ℤ) = if shift12 then 1 else 0 := by
      rw [bits_eq, hw, ← hsh]
      omega
    show (bits w 10 12 : ℤ) * (if bits w 22 1 = 1 then 2 ^ 12 else 1) = _
    rw [himmBits]
    cases shift12 with
    | true =>
      rw [if_pos (by exact_mod_cast hshift)]
      rfl
    | false =>
      have hzero : bits w 22 1 = 0 := by exact_mod_cast hshift
      rw [if_neg (by omega)]
      rfl

/-! ## Bit fields -/

/-- A bit-field move. -/
def ReadsBfm (op : DisOp) (is64 : Bool) (rd rn immr imms : ℤ) (d : Inst) : Prop :=
  d.op = op ∧ d.is64 = is64 ∧ d.rd = rd ∧ d.rn = rn ∧ d.immr = immr ∧ d.imms = imms

/-- The base word of a bit-field move. -/
def bfmBase (is64 sbfm : Bool) : BitVec 32 :=
  if sbfm then if is64 then 0x93400000 else 0x13000000 else if is64 then 0xD3400000 else 0x53000000

/-- A bit-field move as a base with four fields. -/
theorem bfm_eq (is64 sbfm : Bool) (rd rn immr imms : ℤ) :
    bfm is64 sbfm rd rn immr imms =
      bfmBase is64 sbfm ||| field immr (if is64 then 63 else 31) 16 ||| field imms (if is64 then 63 else 31) 10 |||
        R5 rn 5 ||| R5 rd 0 := rfl

/-- The bit-field moves, both signednesses and widths. -/
theorem bfm_reads (is64 sbfm : Bool) {immr imms : ℤ} (hd : IsReg rd) (hn : IsReg rn)
    (hr : 0 ≤ immr ∧ immr < width is64) (hs : 0 ≤ imms ∧ imms < width is64) :
    ReadsBfm (if sbfm then .sbfm else .ubfm) is64 rd rn immr imms (decode (bfm is64 sbfm rd rn immr imms)) := by
  have hbase : (bfmBase is64 sbfm).toNat % 2 ^ 22 = 0 := by cases is64 <;> cases sbfm <;> rfl
  have hmask : (if is64 then 63 else 31 : BitVec 32).toNat = 2 ^ (if is64 then 6 else 5) - 1 := by
    cases is64 <;> rfl
  have hwidth : width is64 = 2 ^ (if is64 then 6 else 5) := by cases is64 <;> rfl
  have hmod (v : ℕ) (hv : v % 2 ^ 6 = 0) : v % 2 ^ (if is64 then 6 else 5) = 0 := by
    cases is64 <;> simp <;> omega
  have hr' : immr < 64 := by cases is64 <;> simp [width] at hr <;> omega
  have hs' : imms < 64 := by cases is64 <;> simp [width] at hs <;> omega
  rw [hwidth] at hr hs
  have hbound : (if is64 then 6 else 5) ≤ 6 := by split <;> decide
  -- one field after another is set; none overlaps what stands above it
  have h₁ : (bfmBase is64 sbfm ||| field immr (if is64 then 63 else 31) 16).toNat = _ :=
    or_unsigned_toNat hr.1 hr.2 hmask (by omega) (hmod _ (by omega))
  have h₂ : (bfmBase is64 sbfm ||| field immr (if is64 then 63 else 31) 16 |||
      field imms (if is64 then 63 else 31) 10).toNat = _ :=
    or_unsigned_toNat hs.1 hs.2 hmask (by omega) (hmod _ (by omega))
  have h₃ : (bfmBase is64 sbfm ||| field immr (if is64 then 63 else 31) 16 |||
      field imms (if is64 then 63 else 31) 10 ||| R5 rn 5).toNat = _ := or_R5_toNat hn (by decide) (by omega)
  unfold IsReg at hn
  have hw : (bfmBase is64 sbfm ||| field immr (if is64 then 63 else 31) 16 |||
      field imms (if is64 then 63 else 31) 10 ||| R5 rn 5 ||| R5 rd 0).toNat = _ :=
    or_R5_toNat hd (by decide) (by omega)
  rw [h₃, h₂, h₁] at hw
  rw [bfm_eq]
  generalize bfmBase is64 sbfm ||| field immr (if is64 then 63 else 31) 16 |||
    field imms (if is64 then 63 else 31) 10 ||| R5 rn 5 ||| R5 rd 0 = w at hw ⊢
  unfold IsReg at hd
  have hdiv : w.toNat / 2 ^ 22 = (bfmBase is64 sbfm).toNat / 2 ^ 22 := by omega
  have hclass : (bfmBase is64 sbfm).toNat / 2 ^ 23 % 64 = 0x26 := by cases is64 <;> cases sbfm <;> rfl
  rw [decode_bitField (by omega)]
  refine ⟨?_, ?_, ?_, ?_, ?_, ?_⟩
  · show (if bits w 29 2 = 0 then DisOp.sbfm else .ubfm) = _
    rw [bits_above hdiv (by decide)]
    cases is64 <;> cases sbfm <;> rfl
  · show decide (bits w 31 1 = 1) = _
    rw [bits_above hdiv (by decide)]
    cases is64 <;> cases sbfm <;> rfl
  all_goals
    simp only [rawFields, bits_eq, hw]
    omega

/-! ## Four registers -/

/-- A multiply with a fourth register. -/
def Reads4 (op : DisOp) (is64 : Bool) (rd rn rm ra : ℤ) (d : Inst) : Prop :=
  Reads3 op is64 rd rn rm d ∧ d.ra = ra

/-- The multiplications with a third operand that is added or subtracted. -/
theorem multiply_reads {op : DisOp} {is64 : Bool} (hlow : base.toNat % 2 ^ 15 = 0)
    (hmid : base.toNat / 2 ^ 16 % 2 ^ 5 = 0) (hclass : base.toNat / 2 ^ 24 % 32 = 0x1B)
    (hclass' : base.toNat / 2 ^ 29 % 4 = 0) (h64 : decide (bits base 31 1 = 1) = is64)
    (hop : (if bits base 15 1 = 1 then .msub else .madd) = op) (hd : IsReg rd) (hn : IsReg rn) (hm : IsReg rm)
    (ha : IsReg ra) : Reads4 op is64 rd rn rm ra (decode (reg4 base rd rn rm ra)) := by
  have h₁ : (base ||| R5 rm 16).toNat = _ := or_R5_toNat hm (by decide) hmid
  have h₂ : (base ||| R5 rm 16 ||| R5 ra 10).toNat = _ := or_R5_toNat ha (by decide) (by omega)
  unfold IsReg at hm ha
  have h₃ : (base ||| R5 rm 16 ||| R5 ra 10 ||| R5 rn 5).toNat = _ := or_R5_toNat hn (by decide) (by omega)
  unfold IsReg at hn
  have hw : (reg4 base rd rn rm ra).toNat = _ := or_R5_toNat hd (by decide) (by omega)
  rw [h₃, h₂, h₁] at hw
  generalize reg4 base rd rn rm ra = w at hw ⊢
  unfold IsReg at hd
  have hdiv : w.toNat / 2 ^ 21 = base.toNat / 2 ^ 21 := by omega
  have hsub : bits w 15 1 = bits base 15 1 := by
    rw [bits_eq, bits_eq, hw]
    omega
  rw [decode_multiply (by omega) (by omega)]
  refine ⟨⟨?_, ?_, ?_, ?_, ?_⟩, ?_⟩
  · rw [← hop, ← hsub]
  · rw [← h64, ← bits_above hdiv (by decide) 1]
    rfl
  all_goals
    simp only [rawFields, bits_eq, hw]
    omega

/-- A conditional select. -/
def ReadsSelect (op : DisOp) (is64 : Bool) (rd rn rm cond : ℤ) (d : Inst) : Prop :=
  Reads3 op is64 rd rn rm d ∧ d.cond = cond

/-- The conditional selects. -/
theorem select_reads {cond : ℤ} {op : DisOp} {is64 : Bool} (hlow : base.toNat % 2 ^ 10 = 0)
    (hmid : base.toNat / 2 ^ 12 % 2 ^ 9 = 0) (hclass : base.toNat / 2 ^ 21 % 256 = 0xD4)
    (h64 : decide (bits base 31 1 = 1) = is64) (hop : (if bits base 10 2 = 1 then .csinc else .csel) = op)
    (hd : IsReg rd) (hn : IsReg rn) (hm : IsReg rm) (hc : 0 ≤ cond ∧ cond < 16) :
    ReadsSelect op is64 rd rn rm cond (decode (select base rd rn rm cond)) := by
  have h₁ : (base ||| R5 rm 16).toNat = _ := or_R5_toNat hm (by decide) (by omega)
  have h₂ : (base ||| R5 rm 16 ||| field cond 0xF 12).toNat = _ :=
    or_unsigned_toNat (n := 4) hc.1 hc.2 rfl (by decide) (by omega)
  unfold IsReg at hm
  have h₃ : (base ||| R5 rm 16 ||| field cond 0xF 12 ||| R5 rn 5).toNat = _ := or_R5_toNat hn (by decide) (by omega)
  unfold IsReg at hn
  have hw : (select base rd rn rm cond).toNat = _ := or_R5_toNat hd (by decide) (by omega)
  rw [h₃, h₂, h₁] at hw
  generalize select base rd rn rm cond = w at hw ⊢
  unfold IsReg at hd
  have hdiv : w.toNat / 2 ^ 21 = base.toNat / 2 ^ 21 := by omega
  have hinc : bits w 10 2 = bits base 10 2 := by
    rw [bits_eq, bits_eq, hw]
    omega
  rw [decode_select (by omega)]
  refine ⟨⟨?_, ?_, ?_, ?_, ?_⟩, ?_⟩
  · rw [← hop, ← hinc]
  · rw [← h64, ← bits_above hdiv (by decide) 1]
    rfl
  all_goals
    simp only [rawFields, bits_eq, hw]
    omega

/-! ## Loads and stores -/

/-- A load or a store at an offset. -/
def ReadsOffset (op : DisOp) (is64 : Bool) (rt rn imm : ℤ) (d : Inst) : Prop :=
  d.op = op ∧ d.is64 = is64 ∧ d.rt = rt ∧ d.rn = rn ∧ d.imm = imm

section

variable {rt scaled : ℤ} (hlow : base.toNat % 2 ^ 22 = 0) (ht : IsReg rt) (hn : IsReg rn)
  (hs : 0 ≤ scaled ∧ scaled < 2 ^ 12)
include hlow ht hn hs

/-- A load or a store with an offset as a number. -/
theorem offsetOp_toNat :
    (offsetOp base rt rn scaled).toNat =
      base.toNat + scaled.toNat * 2 ^ 10 + rn.toNat * 2 ^ 5 + rt.toNat * 2 ^ 0 := by
  have h₁ : (base ||| field scaled 0xFFF 10).toNat = _ :=
    or_unsigned_toNat (n := 12) hs.1 hs.2 rfl (by decide) (by omega)
  have h₂ : (base ||| field scaled 0xFFF 10 ||| R5 rn 5).toNat = _ := or_R5_toNat hn (by decide) (by omega)
  unfold IsReg at hn
  have h₃ : (offsetOp base rt rn scaled).toNat = _ := or_R5_toNat ht (by decide) (by omega)
  rw [h₃, h₂, h₁]

/-- Loads and stores with an unsigned offset, which is scaled by the width of the word. -/
theorem offset_reads {op : DisOp} {is64 : Bool} (hclass : base.toNat / 2 ^ 24 % 64 = 0x39)
    (h64 : decide (bits base 30 2 = 3) = is64) (hop : (if bits base 22 2 = 0 then .strImm else .ldrImm) = op) :
    ReadsOffset op is64 rt rn (scaled * wordBytes is64) (decode (offsetOp base rt rn scaled)) := by
  have hw := offsetOp_toNat hlow ht hn hs
  generalize offsetOp base rt rn scaled = w at hw ⊢
  unfold IsReg at ht hn
  have hdiv : w.toNat / 2 ^ 22 = base.toNat / 2 ^ 22 := by omega
  rw [decode_offset (by omega)]
  refine ⟨?_, ?_, ?_, ?_, ?_⟩
  · rw [← hop, ← bits_above hdiv (by decide) 2]
  · rw [← h64, ← bits_above hdiv (by decide) 2]
  · simp only [rawFields, bits_eq, hw]
    omega
  · simp only [rawFields, bits_eq, hw]
    omega
  · have hscaled : (bits w 10 12 : ℤ) = scaled := by
      rw [bits_eq, hw]
      omega
    show (bits w 10 12 : ℤ) * (if bits w 30 2 = 3 then 8 else 4) = _
    rw [hscaled, bits_above hdiv (by decide) 2, wordBytes, ← h64]
    simp only [decide_eq_true_eq]

/-- Floating-point loads and stores. -/
theorem offset_unknown (hclass : base.toNat / 2 ^ 24 % 64 = 0x3D) :
    (decode (offsetOp base rt rn scaled)).op = .unknown := by
  have hw := offsetOp_toNat hlow ht hn hs
  unfold IsReg at ht hn
  rw [decode_float (.inr (by omega))]
  rfl

end

/-- A load or a store of two registers. -/
def ReadsPair (op : DisOp) (is64 : Bool) (rt rt2 rn imm : ℤ) (d : Inst) : Prop :=
  ReadsOffset op is64 rt rn imm d ∧ d.rt2 = rt2

/-- Loads and stores of a pair, whose offset is signed. -/
theorem pair_reads {rt rt2 scaled : ℤ} {op : DisOp} {is64 : Bool} (hlow : base.toNat % 2 ^ 22 = 0)
    (hclass : base.toNat / 2 ^ 25 % 32 = 0x14) (h64 : decide (bits base 30 2 = 2) = is64)
    (hop : (if bits base 22 1 = 1 then .ldp else .stp) = op) (ht : IsReg rt) (ht2 : IsReg rt2) (hn : IsReg rn)
    (hs : -2 ^ 6 ≤ scaled ∧ scaled < 2 ^ 6) :
    ReadsPair op is64 rt rt2 rn (scaled * wordBytes is64) (decode (pairOp base rt rt2 rn scaled)) := by
  have h₁ : (base ||| field scaled 0x7F 15).toNat = _ := or_field_toNat (n := 7) rfl (by decide) (by omega)
  have hseven : (scaled % 2 ^ 7).toNat < 2 ^ 7 := by omega
  have h₂ : (base ||| field scaled 0x7F 15 ||| R5 rt2 10).toNat = _ := or_R5_toNat ht2 (by decide) (by omega)
  unfold IsReg at ht2
  have h₃ : (base ||| field scaled 0x7F 15 ||| R5 rt2 10 ||| R5 rn 5).toNat = _ :=
    or_R5_toNat hn (by decide) (by omega)
  unfold IsReg at hn
  have hw : (pairOp base rt rt2 rn scaled).toNat = _ := or_R5_toNat ht (by decide) (by omega)
  rw [h₃, h₂, h₁] at hw
  generalize pairOp base rt rt2 rn scaled = w at hw ⊢
  unfold IsReg at ht
  have hdiv : w.toNat / 2 ^ 22 = base.toNat / 2 ^ 22 := by omega
  rw [decode_pair (by omega)]
  refine ⟨⟨?_, ?_, ?_, ?_, ?_⟩, ?_⟩
  · rw [← hop, ← bits_above hdiv (by decide) 1]
  · rw [← h64, ← bits_above hdiv (by decide) 2]
  · simp only [rawFields, bits_eq, hw]
    omega
  · simp only [rawFields, bits_eq, hw]
    omega
  · have hscaled : bits w 15 7 = (scaled % 2 ^ 7).toNat := by
      rw [bits_eq, hw]
      omega
    show signExtend (bits w 15 7) 7 * (if bits w 30 2 = 2 then 8 else 4) = _
    rw [hscaled, signExtend_field (k := 6) hs.1 hs.2, bits_above hdiv (by decide) 2, wordBytes, ← h64]
    simp only [decide_eq_true_eq]
  · simp only [rawFields, bits_eq, hw]
    omega

/-! ## Branches -/

/-- A byte offset a branch with `n` bits for words can hold. -/
def IsBranchOffset (n : ℕ) (offset : ℤ) : Prop := offset % 4 = 0 ∧ -2 ^ (n - 1) ≤ offset / 4 ∧ offset / 4 < 2 ^ (n - 1)

section

variable {offset : ℤ}

/-- A jump over an offset that fits. -/
theorem b_reads (h : IsBranchOffset 26 offset) : (decode (b offset)).op = .b ∧ (decode (b offset)).imm = offset := by
  obtain ⟨h4, hlo, hhi⟩ := h
  have hw : (b offset).toNat = _ := or_field_toNat (n := 26) rfl (by decide) (by decide)
  have hfield : bits (b offset) 0 26 = (offset / 4 % 2 ^ 26).toNat := by
    rw [bits_eq, hw]
    show (0x14000000 + _) / _ % _ = _
    omega
  have hbase : (0x14000000 : BitVec 32).toNat = 0x14000000 := rfl
  rw [decode_branch (by omega)]
  refine ⟨rfl, ?_⟩
  show signExtend (bits (b offset) 0 26) 26 * 4 = _
  rw [hfield, signExtend_field (k := 25) hlo hhi]
  omega

/-- A call over an offset that fits. -/
theorem bl_reads (h : IsBranchOffset 26 offset) :
    (decode (bl offset)).op = .bl ∧ (decode (bl offset)).imm = offset := by
  obtain ⟨h4, hlo, hhi⟩ := h
  have hw : (bl offset).toNat = _ := or_field_toNat (n := 26) rfl (by decide) (by decide)
  have hbase : (0x94000000 : BitVec 32).toNat = 0x94000000 := rfl
  have hfield : bits (bl offset) 0 26 = (offset / 4 % 2 ^ 26).toNat := by
    rw [bits_eq, hw, hbase]
    omega
  rw [decode_branchLink (by omega)]
  refine ⟨rfl, ?_⟩
  show signExtend (bits (bl offset) 0 26) 26 * 4 = _
  rw [hfield, signExtend_field (k := 25) hlo hhi]
  omega

/-- A conditional branch keeps the low four bits of its condition. -/
theorem bcond_reads (cond : ℤ) (h : IsBranchOffset 19 offset) :
    (decode (bcond cond offset)).op = .bcond ∧ (decode (bcond cond offset)).cond = cond % 16 ∧
      (decode (bcond cond offset)).imm = offset := by
  obtain ⟨h4, hlo, hhi⟩ := h
  have hbase : (0x54000000 : BitVec 32).toNat = 0x54000000 := rfl
  have h₁ : ((0x54000000 : BitVec 32) ||| field (offset / 4) 0x7FFFF 5).toNat = _ :=
    or_field_toNat (n := 19) rfl (by decide) (by decide)
  have hw : (bcond cond offset).toNat = _ := or_field_toNat (n := 4) rfl (by decide) (by omega)
  rw [h₁, hbase] at hw
  have hfield : bits (bcond cond offset) 5 19 = (offset / 4 % 2 ^ 19).toNat := by
    rw [bits_eq, hw]
    omega
  rw [decode_condBranch (by omega)]
  refine ⟨rfl, ?_, ?_⟩
  · show (bits (bcond cond offset) 0 4 : ℤ) = _
    rw [bits_eq, hw]
    omega
  · show signExtend (bits (bcond cond offset) 5 19) 19 * 4 = _
    rw [hfield, signExtend_field (k := 18) hlo hhi]
    omega

/-- The branches that compare a register with zero keep the low five bits of its number. -/
theorem compareBranch_reads {rt : ℤ} {op : DisOp} {is64 : Bool} (hlow : base.toNat % 2 ^ 24 = 0)
    (hclass : base.toNat / 2 ^ 25 % 64 = 0x1A) (h64 : decide (bits base 31 1 = 1) = is64)
    (hop : (if bits base 24 1 = 1 then .cbnz else .cbz) = op) (h : IsBranchOffset 19 offset) :
    let d := decode (base ||| field (offset / 4) 0x7FFFF 5 ||| R5 rt 0)
    d.op = op ∧ d.is64 = is64 ∧ d.rt = rt % 32 ∧ d.imm = offset := by
  obtain ⟨h4, hlo, hhi⟩ := h
  have h₁ : (base ||| field (offset / 4) 0x7FFFF 5).toNat = _ := or_field_toNat (n := 19) rfl (by decide) (by omega)
  have hw : (base ||| field (offset / 4) 0x7FFFF 5 ||| R5 rt 0).toNat = _ :=
    or_field_toNat (n := 5) rfl (by decide) (by omega)
  rw [h₁] at hw
  generalize base ||| field (offset / 4) 0x7FFFF 5 ||| R5 rt 0 = w at hw ⊢
  have hdiv : w.toNat / 2 ^ 24 = base.toNat / 2 ^ 24 := by omega
  have hfield : bits w 5 19 = (offset / 4 % 2 ^ 19).toNat := by
    rw [bits_eq, hw]
    omega
  rw [decode_compareBranch (by omega)]
  refine ⟨?_, ?_, ?_, ?_⟩
  · rw [← hop, ← bits_above hdiv (by decide) 1]
  · rw [← h64, ← bits_above hdiv (by decide) 1]
    rfl
  · simp only [rawFields, bits_eq, hw]
    omega
  · show signExtend (bits w 5 19) 19 * 4 = _
    rw [hfield, signExtend_field (k := 18) hlo hhi]
    omega

/-- The branch on zero. -/
theorem cbz_reads (is64 : Bool) (rt : ℤ) (h : IsBranchOffset 19 offset) :
    (decode (cbz is64 rt offset)).op = .cbz ∧ (decode (cbz is64 rt offset)).is64 = is64 ∧
      (decode (cbz is64 rt offset)).rt = rt % 32 ∧ (decode (cbz is64 rt offset)).imm = offset := by
  refine compareBranch_reads ?_ ?_ ?_ ?_ h <;> cases is64 <;> rfl

/-- The branch on a register that is not zero. -/
theorem cbnz_reads (is64 : Bool) (rt : ℤ) (h : IsBranchOffset 19 offset) :
    (decode (cbnz is64 rt offset)).op = .cbnz ∧ (decode (cbnz is64 rt offset)).is64 = is64 ∧
      (decode (cbnz is64 rt offset)).rt = rt % 32 ∧ (decode (cbnz is64 rt offset)).imm = offset := by
  refine compareBranch_reads ?_ ?_ ?_ ?_ h <;> cases is64 <;> rfl

/-- The branches to a register are told apart by the bits around it. -/
theorem branchReg_and (hbase : base &&& 0xFFFFFC1F = base) (x : ℤ) : (base ||| R5 x 5) &&& 0xFFFFFC1F = base := by
  have hfield : R5 x 5 &&& 0xFFFFFC1F = 0 := by
    unfold R5 field
    rw [BitVec.shiftLeft_and_distrib, BitVec.and_assoc]
    show _ &&& 0 = _
    simp
  rw [BitVec.and_or_distrib_right, hbase, hfield]
  simp

/-- The register that an indirect branch goes to. -/
theorem branchReg_rn (hlow : base.toNat % 2 ^ 10 = 0) (hn : IsReg rn) : (bits (base ||| R5 rn 5) 5 5 : ℤ) = rn := by
  have hw : (base ||| R5 rn 5).toNat = _ := or_R5_toNat hn (by decide) (by omega)
  unfold IsReg at hn
  rw [bits_eq, hw]
  omega

theorem br_reads (hn : IsReg rn) : (decode (br rn)).op = .br ∧ (decode (br rn)).rn = rn := by
  unfold br
  rw [decode_br (branchReg_and rfl rn)]
  exact ⟨rfl, branchReg_rn rfl hn⟩

theorem blr_reads (hn : IsReg rn) : (decode (blr rn)).op = .blr ∧ (decode (blr rn)).rn = rn := by
  unfold blr
  rw [decode_blr (branchReg_and rfl rn)]
  exact ⟨rfl, branchReg_rn rfl hn⟩

theorem ret_reads (hn : IsReg rn) : (decode (ret rn)).op = .ret ∧ (decode (ret rn)).rn = rn := by
  unfold ret
  rw [decode_ret (branchReg_and rfl rn)]
  exact ⟨rfl, branchReg_rn rfl hn⟩

end

end Mettle.Arm64

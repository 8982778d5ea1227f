import Mettle.Arm64.DecodeReads

/-!
# Encoding and decoding

Every encoder as an instruction with its operands, the operands its fields can hold, and what a decoder that
inverts it must read. The decoder does so, or reports the word as unknown, for all but six of the encoders.
-/

namespace Mettle.Arm64

/-- A call of an encoder of `arm64_encode.c`. -/
inductive Insn where
  | nop
  | movReg (is64 : Bool) (rd rm : ℤ)
  | movz (is64 : Bool) (rd imm16 hw : ℤ)
  | movn (is64 : Bool) (rd imm16 hw : ℤ)
  | movk (is64 : Bool) (rd imm16 hw : ℤ)
  | addReg (is64 : Bool) (rd rn rm : ℤ)
  | subReg (is64 : Bool) (rd rn rm : ℤ)
  | andReg (is64 : Bool) (rd rn rm : ℤ)
  | orrReg (is64 : Bool) (rd rn rm : ℤ)
  | eorReg (is64 : Bool) (rd rn rm : ℤ)
  | neg (is64 : Bool) (rd rm : ℤ)
  | mvn (is64 : Bool) (rd rm : ℤ)
  | addImm (is64 : Bool) (rd rn imm12 : ℤ) (shift12 : Bool)
  | movSp (rd rn : ℤ)
  | subImm (is64 : Bool) (rd rn imm12 : ℤ) (shift12 : Bool)
  | cmpReg (is64 : Bool) (rn rm : ℤ)
  | cmpImm (is64 : Bool) (rn imm12 : ℤ) (shift12 : Bool)
  | tst (is64 : Bool) (rn rm : ℤ)
  | uxtb (rd rn : ℤ)
  | uxth (rd rn : ℤ)
  | sxtb (rd rn : ℤ)
  | sxth (rd rn : ℤ)
  | sxtw (rd rn : ℤ)
  | madd (is64 : Bool) (rd rn rm ra : ℤ)
  | msub (is64 : Bool) (rd rn rm ra : ℤ)
  | mul (is64 : Bool) (rd rn rm : ℤ)
  | sdiv (is64 : Bool) (rd rn rm : ℤ)
  | udiv (is64 : Bool) (rd rn rm : ℤ)
  | lslv (is64 : Bool) (rd rn rm : ℤ)
  | lsrv (is64 : Bool) (rd rn rm : ℤ)
  | asrv (is64 : Bool) (rd rn rm : ℤ)
  | lslImm (is64 : Bool) (rd rn shift : ℤ)
  | lsrImm (is64 : Bool) (rd rn shift : ℤ)
  | asrImm (is64 : Bool) (rd rn shift : ℤ)
  | csel (is64 : Bool) (rd rn rm cond : ℤ)
  | cset (is64 : Bool) (rd cond : ℤ)
  | strImm (is64 : Bool) (rt rn offsetBytes : ℤ)
  | ldrImm (is64 : Bool) (rt rn offsetBytes : ℤ)
  | strbImm (rt rn offset : ℤ)
  | ldrbImm (rt rn offset : ℤ)
  | strhImm (rt rn offsetBytes : ℤ)
  | ldrhImm (rt rn offsetBytes : ℤ)
  | fmul (isDouble : Bool) (fd fn fm : ℤ)
  | fdiv (isDouble : Bool) (fd fn fm : ℤ)
  | fadd (isDouble : Bool) (fd fn fm : ℤ)
  | fsub (isDouble : Bool) (fd fn fm : ℤ)
  | fneg (isDouble : Bool) (fd fn : ℤ)
  | fcmp (isDouble : Bool) (fn fm : ℤ)
  | scvtf (isDouble : Bool) (fd xn : ℤ)
  | fcvtzs (isDouble : Bool) (xd fn : ℤ)
  | ucvtf (isDouble : Bool) (fd xn : ℤ)
  | fcvtzu (isDouble : Bool) (xd fn : ℤ)
  | fcvt (toDouble : Bool) (fd fn : ℤ)
  | fcvtH2s (sd hn : ℤ)
  | fcvtS2h (hd sn : ℤ)
  | fmovGp (isDouble : Bool) (fd xn : ℤ)
  | fmovToGp (isDouble : Bool) (xd fn : ℤ)
  | fmovReg (isDouble : Bool) (fd fn : ℤ)
  | ldrFp (isDouble : Bool) (ft rn offsetBytes : ℤ)
  | strFp (isDouble : Bool) (ft rn offsetBytes : ℤ)
  | stpPre (is64 : Bool) (rt rt2 rn offsetBytes : ℤ)
  | ldpPost (is64 : Bool) (rt rt2 rn offsetBytes : ℤ)
  | b (offsetBytes : ℤ)
  | bl (offsetBytes : ℤ)
  | bcond (cond offsetBytes : ℤ)
  | cbz (is64 : Bool) (rt offsetBytes : ℤ)
  | cbnz (is64 : Bool) (rt offsetBytes : ℤ)
  | br (rn : ℤ)
  | blr (rn : ℤ)
  | ret (rn : ℤ)
  deriving DecidableEq, Repr

namespace Insn

/-- The word of an instruction. -/
def encode : Insn → BitVec 32
  | nop => Arm64.nop
  | movReg is64 rd rm => Arm64.movReg is64 rd rm
  | movz is64 rd imm16 hw => Arm64.movz is64 rd imm16 hw
  | movn is64 rd imm16 hw => Arm64.movn is64 rd imm16 hw
  | movk is64 rd imm16 hw => Arm64.movk is64 rd imm16 hw
  | addReg is64 rd rn rm => Arm64.addReg is64 rd rn rm
  | subReg is64 rd rn rm => Arm64.subReg is64 rd rn rm
  | andReg is64 rd rn rm => Arm64.andReg is64 rd rn rm
  | orrReg is64 rd rn rm => Arm64.orrReg is64 rd rn rm
  | eorReg is64 rd rn rm => Arm64.eorReg is64 rd rn rm
  | neg is64 rd rm => Arm64.neg is64 rd rm
  | mvn is64 rd rm => Arm64.mvn is64 rd rm
  | addImm is64 rd rn imm12 shift12 => Arm64.addImm is64 rd rn imm12 shift12
  | movSp rd rn => Arm64.movSp rd rn
  | subImm is64 rd rn imm12 shift12 => Arm64.subImm is64 rd rn imm12 shift12
  | cmpReg is64 rn rm => Arm64.cmpReg is64 rn rm
  | cmpImm is64 rn imm12 shift12 => Arm64.cmpImm is64 rn imm12 shift12
  | tst is64 rn rm => Arm64.tst is64 rn rm
  | uxtb rd rn => Arm64.uxtb rd rn
  | uxth rd rn => Arm64.uxth rd rn
  | sxtb rd rn => Arm64.sxtb rd rn
  | sxth rd rn => Arm64.sxth rd rn
  | sxtw rd rn => Arm64.sxtw rd rn
  | madd is64 rd rn rm ra => Arm64.madd is64 rd rn rm ra
  | msub is64 rd rn rm ra => Arm64.msub is64 rd rn rm ra
  | mul is64 rd rn rm => Arm64.mul is64 rd rn rm
  | sdiv is64 rd rn rm => Arm64.sdiv is64 rd rn rm
  | udiv is64 rd rn rm => Arm64.udiv is64 rd rn rm
  | lslv is64 rd rn rm => Arm64.lslv is64 rd rn rm
  | lsrv is64 rd rn rm => Arm64.lsrv is64 rd rn rm
  | asrv is64 rd rn rm => Arm64.asrv is64 rd rn rm
  | lslImm is64 rd rn shift => Arm64.lslImm is64 rd rn shift
  | lsrImm is64 rd rn shift => Arm64.lsrImm is64 rd rn shift
  | asrImm is64 rd rn shift => Arm64.asrImm is64 rd rn shift
  | csel is64 rd rn rm cond => Arm64.csel is64 rd rn rm cond
  | cset is64 rd cond => Arm64.cset is64 rd cond
  | strImm is64 rt rn offsetBytes => Arm64.strImm is64 rt rn offsetBytes
  | ldrImm is64 rt rn offsetBytes => Arm64.ldrImm is64 rt rn offsetBytes
  | strbImm rt rn offset => Arm64.strbImm rt rn offset
  | ldrbImm rt rn offset => Arm64.ldrbImm rt rn offset
  | strhImm rt rn offsetBytes => Arm64.strhImm rt rn offsetBytes
  | ldrhImm rt rn offsetBytes => Arm64.ldrhImm rt rn offsetBytes
  | fmul isDouble fd fn fm => Arm64.fmul isDouble fd fn fm
  | fdiv isDouble fd fn fm => Arm64.fdiv isDouble fd fn fm
  | fadd isDouble fd fn fm => Arm64.fadd isDouble fd fn fm
  | fsub isDouble fd fn fm => Arm64.fsub isDouble fd fn fm
  | fneg isDouble fd fn => Arm64.fneg isDouble fd fn
  | fcmp isDouble fn fm => Arm64.fcmp isDouble fn fm
  | scvtf isDouble fd xn => Arm64.scvtf isDouble fd xn
  | fcvtzs isDouble xd fn => Arm64.fcvtzs isDouble xd fn
  | ucvtf isDouble fd xn => Arm64.ucvtf isDouble fd xn
  | fcvtzu isDouble xd fn => Arm64.fcvtzu isDouble xd fn
  | fcvt toDouble fd fn => Arm64.fcvt toDouble fd fn
  | fcvtH2s sd hn => Arm64.fcvtH2s sd hn
  | fcvtS2h hd sn => Arm64.fcvtS2h hd sn
  | fmovGp isDouble fd xn => Arm64.fmovGp isDouble fd xn
  | fmovToGp isDouble xd fn => Arm64.fmovToGp isDouble xd fn
  | fmovReg isDouble fd fn => Arm64.fmovReg isDouble fd fn
  | ldrFp isDouble ft rn offsetBytes => Arm64.ldrFp isDouble ft rn offsetBytes
  | strFp isDouble ft rn offsetBytes => Arm64.strFp isDouble ft rn offsetBytes
  | stpPre is64 rt rt2 rn offsetBytes => Arm64.stpPre is64 rt rt2 rn offsetBytes
  | ldpPost is64 rt rt2 rn offsetBytes => Arm64.ldpPost is64 rt rt2 rn offsetBytes
  | b offsetBytes => Arm64.b offsetBytes
  | bl offsetBytes => Arm64.bl offsetBytes
  | bcond cond offsetBytes => Arm64.bcond cond offsetBytes
  | cbz is64 rt offsetBytes => Arm64.cbz is64 rt offsetBytes
  | cbnz is64 rt offsetBytes => Arm64.cbnz is64 rt offsetBytes
  | br rn => Arm64.br rn
  | blr rn => Arm64.blr rn
  | ret rn => Arm64.ret rn

/-- A byte offset that is a count of `scale` bytes with twelve bits. -/
def IsScaled (scale offset : ℤ) : Prop := offset % scale = 0 ∧ 0 ≤ offset / scale ∧ offset / scale < 2 ^ 12

/-- A byte offset that is a signed count of words with seven bits. -/
def IsPairOffset (is64 : Bool) (offset : ℤ) : Prop :=
  offset % wordBytes is64 = 0 ∧ -2 ^ 6 ≤ offset / wordBytes is64 ∧ offset / wordBytes is64 < 2 ^ 6

/-- The operands fit their fields. -/
def InRange : Insn → Prop
  | nop => True
  | movReg _ rd rm | neg _ rd rm | mvn _ rd rm => IsReg rd ∧ IsReg rm
  | movz _ rd imm16 hw | movn _ rd imm16 hw | movk _ rd imm16 hw =>
    IsReg rd ∧ (0 ≤ imm16 ∧ imm16 < 2 ^ 16) ∧ 0 ≤ hw ∧ hw < 4
  | addReg _ rd rn rm | subReg _ rd rn rm | andReg _ rd rn rm | orrReg _ rd rn rm | eorReg _ rd rn rm
  | mul _ rd rn rm | sdiv _ rd rn rm | udiv _ rd rn rm | lslv _ rd rn rm | lsrv _ rd rn rm | asrv _ rd rn rm
  | fmul _ rd rn rm | fdiv _ rd rn rm | fadd _ rd rn rm | fsub _ rd rn rm => IsReg rd ∧ IsReg rn ∧ IsReg rm
  | addImm _ rd rn imm12 _ | subImm _ rd rn imm12 _ => IsReg rd ∧ IsReg rn ∧ 0 ≤ imm12 ∧ imm12 < 2 ^ 12
  | cmpImm _ rn imm12 _ => IsReg rn ∧ 0 ≤ imm12 ∧ imm12 < 2 ^ 12
  | cmpReg _ rn rm | tst _ rn rm | fcmp _ rn rm => IsReg rn ∧ IsReg rm
  | movSp rd rn | uxtb rd rn | uxth rd rn | sxtb rd rn | sxth rd rn | sxtw rd rn | fcvtH2s rd rn | fcvtS2h rd rn
  | fneg _ rd rn | scvtf _ rd rn | fcvtzs _ rd rn | ucvtf _ rd rn | fcvtzu _ rd rn | fcvt _ rd rn | fmovGp _ rd rn
  | fmovToGp _ rd rn | fmovReg _ rd rn => IsReg rd ∧ IsReg rn
  | madd _ rd rn rm ra | msub _ rd rn rm ra => IsReg rd ∧ IsReg rn ∧ IsReg rm ∧ IsReg ra
  | lslImm is64 rd rn shift | lsrImm is64 rd rn shift | asrImm is64 rd rn shift =>
    IsReg rd ∧ IsReg rn ∧ 0 ≤ shift ∧ shift < width is64
  | csel _ rd rn rm cond => IsReg rd ∧ IsReg rn ∧ IsReg rm ∧ 0 ≤ cond ∧ cond < 16
  | cset _ rd cond => IsReg rd ∧ 0 ≤ cond ∧ cond < 16
  | strImm is64 rt rn offset | ldrImm is64 rt rn offset | ldrFp is64 rt rn offset | strFp is64 rt rn offset =>
    IsReg rt ∧ IsReg rn ∧ IsScaled (wordBytes is64) offset
  | strbImm rt rn offset | ldrbImm rt rn offset => IsReg rt ∧ IsReg rn ∧ IsScaled 1 offset
  | strhImm rt rn offset | ldrhImm rt rn offset => IsReg rt ∧ IsReg rn ∧ IsScaled 2 offset
  | stpPre is64 rt rt2 rn offset | ldpPost is64 rt rt2 rn offset =>
    IsReg rt ∧ IsReg rt2 ∧ IsReg rn ∧ IsPairOffset is64 offset
  | b offset | bl offset => IsBranchOffset 26 offset
  | bcond cond offset => (0 ≤ cond ∧ cond < 16) ∧ IsBranchOffset 19 offset
  | cbz _ rt offset | cbnz _ rt offset => IsReg rt ∧ IsBranchOffset 19 offset
  | br rn | blr rn | ret rn => IsReg rn

/-- What a decoder that inverts the encoder reads: the operation, under the name of the instruction an alias
stands for, with its operands. The decoder has no name for `mvn`, `tst`, the loads and stores of bytes and
halfwords and floating point. -/
def Reads : Insn → Inst → Prop
  | nop, d => d.op = .nop
  | movReg is64 rd rm, d => Reads3 .mov is64 rd XZR rm d
  | movz is64 rd imm16 hw, d => ReadsWide .movz is64 rd imm16 hw d
  | movn is64 rd imm16 hw, d => ReadsWide .movn is64 rd imm16 hw d
  | movk is64 rd imm16 hw, d => ReadsWide .movk is64 rd imm16 hw d
  | addReg is64 rd rn rm, d => Reads3 .addReg is64 rd rn rm d
  | subReg is64 rd rn rm, d => Reads3 .subReg is64 rd rn rm d
  | andReg is64 rd rn rm, d => Reads3 .andReg is64 rd rn rm d
  | orrReg is64 rd rn rm, d => Reads3 (if rn = XZR then .mov else .orrReg) is64 rd rn rm d
  | eorReg is64 rd rn rm, d => Reads3 .eorReg is64 rd rn rm d
  | neg is64 rd rm, d => Reads3 .subReg is64 rd XZR rm d
  | addImm is64 rd rn imm12 shift12, d => ReadsImm .addImm is64 rd rn (imm12 * if shift12 then 2 ^ 12 else 1) d
  | movSp rd rn, d => ReadsImm .addImm true rd rn 0 d
  | subImm is64 rd rn imm12 shift12, d => ReadsImm .subImm is64 rd rn (imm12 * if shift12 then 2 ^ 12 else 1) d
  | cmpReg is64 rn rm, d => Reads3 .subsReg is64 XZR rn rm d
  | cmpImm is64 rn imm12 shift12, d => ReadsImm .subsImm is64 XZR rn (imm12 * if shift12 then 2 ^ 12 else 1) d
  | uxtb rd rn, d => ReadsBfm .ubfm false rd rn 0 7 d
  | uxth rd rn, d => ReadsBfm .ubfm false rd rn 0 15 d
  | sxtb rd rn, d => ReadsBfm .sbfm true rd rn 0 7 d
  | sxth rd rn, d => ReadsBfm .sbfm true rd rn 0 15 d
  | sxtw rd rn, d => ReadsBfm .sbfm true rd rn 0 31 d
  | madd is64 rd rn rm ra, d => Reads4 .madd is64 rd rn rm ra d
  | msub is64 rd rn rm ra, d => Reads4 .msub is64 rd rn rm ra d
  | mul is64 rd rn rm, d => Reads4 .madd is64 rd rn rm XZR d
  | sdiv is64 rd rn rm, d => Reads3 .sdiv is64 rd rn rm d
  | udiv is64 rd rn rm, d => Reads3 .udiv is64 rd rn rm d
  | lslv is64 rd rn rm, d => Reads3 .lslv is64 rd rn rm d
  | lsrv is64 rd rn rm, d => Reads3 .lsrv is64 rd rn rm d
  | asrv is64 rd rn rm, d => Reads3 .asrv is64 rd rn rm d
  | lslImm is64 rd rn shift, d =>
    ReadsBfm .ubfm is64 rd rn ((width is64 - shift) % width is64) (width is64 - 1 - shift) d
  | lsrImm is64 rd rn shift, d => ReadsBfm .ubfm is64 rd rn shift (width is64 - 1) d
  | asrImm is64 rd rn shift, d => ReadsBfm .sbfm is64 rd rn shift (width is64 - 1) d
  | csel is64 rd rn rm cond, d => ReadsSelect .csel is64 rd rn rm cond d
  | cset is64 rd cond, d => ReadsSelect .csinc is64 rd XZR XZR (invertCond cond) d
  | strImm is64 rt rn offset, d => ReadsOffset .strImm is64 rt rn offset d
  | ldrImm is64 rt rn offset, d => ReadsOffset .ldrImm is64 rt rn offset d
  | stpPre is64 rt rt2 rn offset, d => ReadsPair .stp is64 rt rt2 rn offset d
  | ldpPost is64 rt rt2 rn offset, d => ReadsPair .ldp is64 rt rt2 rn offset d
  | b offset, d => d.op = .b ∧ d.imm = offset
  | bl offset, d => d.op = .bl ∧ d.imm = offset
  | bcond cond offset, d => d.op = .bcond ∧ d.cond = cond ∧ d.imm = offset
  | cbz is64 rt offset, d => d.op = .cbz ∧ d.is64 = is64 ∧ d.rt = rt ∧ d.imm = offset
  | cbnz is64 rt offset, d => d.op = .cbnz ∧ d.is64 = is64 ∧ d.rt = rt ∧ d.imm = offset
  | br rn, d => d.op = .br ∧ d.rn = rn
  | blr rn, d => d.op = .blr ∧ d.rn = rn
  | ret rn, d => d.op = .ret ∧ d.rn = rn
  | mvn .., _ | tst .., _ | strbImm .., _ | ldrbImm .., _ | strhImm .., _ | ldrhImm .., _ | fmul .., _ | fdiv .., _
  | fadd .., _ | fsub .., _ | fneg .., _ | fcmp .., _ | scvtf .., _ | fcvtzs .., _ | ucvtf .., _ | fcvtzu .., _
  | fcvt .., _ | fcvtH2s .., _ | fcvtS2h .., _ | fmovGp .., _ | fmovToGp .., _ | fmovReg .., _ | ldrFp .., _
  | strFp .., _ => False

/-- The encoders whose words the decoder takes for those of another: inverted and flag-setting logical operations
and the loads and stores of less than a word. -/
def IsMisread : Insn → Prop
  | mvn .. | tst .. | strbImm .. | ldrbImm .. | strhImm .. | ldrhImm .. => True
  | _ => False

/-! ## The words of aliases -/

/-- The order in which the encoders put in the registers. -/
theorem or_rotate (a b c d : BitVec 32) : a ||| b ||| c ||| d = a ||| c ||| d ||| b := by ac_rfl

variable {base full : BitVec 32}

/-- An encoding whose destination is the zero register. -/
theorem reg3_or_rd (hfull : full = base ||| R5 XZR 0) (rn rm : ℤ) :
    full ||| R5 rm 16 ||| R5 rn 5 = reg3 base XZR rn rm := by
  rw [reg3, hfull]
  exact or_rotate _ _ _ _

/-- An encoding whose first source is the zero register. -/
theorem reg3_or_rn (hfull : full = base ||| R5 XZR 5) (rd rm : ℤ) :
    full ||| R5 rm 16 ||| R5 rd 0 = reg3 base rd XZR rm := by
  rw [reg3, hfull, or_rotate, BitVec.or_assoc, BitVec.or_comm (R5 rd 0), ← BitVec.or_assoc]

/-- A move is an `ORR` with the zero register. -/
theorem movReg_eq (is64 : Bool) (rd rm : ℤ) : Arm64.movReg is64 rd rm = Arm64.orrReg is64 rd XZR rm := by
  apply reg3_or_rn
  cases is64 <;> rfl

/-- A comparison is a subtraction into the zero register. -/
theorem cmpReg_eq (is64 : Bool) (rn rm : ℤ) :
    Arm64.cmpReg is64 rn rm = reg3 (if is64 then 0xEB000000 else 0x6B000000) XZR rn rm := by
  apply reg3_or_rd
  cases is64 <;> rfl

/-- So is one with an immediate. -/
theorem cmpImm_eq (is64 : Bool) (rn imm12 : ℤ) (shift12 : Bool) :
    Arm64.cmpImm is64 rn imm12 shift12 =
      imm12Op (if is64 then 0xF1000000 else 0x71000000) XZR rn imm12 shift12 := by
  have hbase : (if is64 then 0xF100001F else 0x7100001F : BitVec 32) =
      (if is64 then 0xF1000000 else 0x71000000) ||| R5 XZR 0 := by cases is64 <;> rfl
  have hmove (a b c d e : BitVec 32) : a ||| b ||| c ||| d ||| e = a ||| c ||| d ||| e ||| b := by ac_rfl
  rw [Arm64.cmpImm, imm12Op, hbase]
  exact hmove _ _ _ _ _

/-- A negation is an `ORN` with the zero register. -/
theorem mvn_eq (is64 : Bool) (rd rm : ℤ) :
    Arm64.mvn is64 rd rm = reg3 (if is64 then 0xAA200000 else 0x2A200000) rd XZR rm := by
  apply reg3_or_rn
  cases is64 <;> rfl

/-- A test is an `ANDS` into the zero register. -/
theorem tst_eq (is64 : Bool) (rn rm : ℤ) :
    Arm64.tst is64 rn rm = reg3 (if is64 then 0xEA000000 else 0x6A000000) XZR rn rm := by
  apply reg3_or_rd
  cases is64 <;> rfl

/-- A comparison of floats has no destination. -/
theorem fcmp_eq (isDouble : Bool) (fn fm : ℤ) :
    Arm64.fcmp isDouble fn fm = reg3 (if isDouble then 0x1E602000 else 0x1E202000) 0 fn fm := by
  have hzero : R5 0 0 = 0#32 := rfl
  rw [Arm64.fcmp, reg3, hzero, BitVec.or_zero]

/-- The extensions are bit-field moves from bit zero. -/
theorem reg2_eq_bfm {is64 sbfm : Bool} {imms : ℤ}
    (hfull : full = bfmBase is64 sbfm ||| field 0 (if is64 then 63 else 31) 16 ||| field imms (if is64 then 63 else 31) 10)
    (rd rn : ℤ) : reg2 full rd rn = bfm is64 sbfm rd rn 0 imms := by
  rw [reg2, bfm_eq, hfull]

/-- The extension of a byte is a bit-field move. -/
theorem uxtb_eq (rd rn : ℤ) : Arm64.uxtb rd rn = bfm false false rd rn 0 7 := by
  apply reg2_eq_bfm
  decide

theorem uxth_eq (rd rn : ℤ) : Arm64.uxth rd rn = bfm false false rd rn 0 15 := by
  apply reg2_eq_bfm
  decide

theorem sxtb_eq (rd rn : ℤ) : Arm64.sxtb rd rn = bfm true true rd rn 0 7 := by
  apply reg2_eq_bfm
  decide

theorem sxth_eq (rd rn : ℤ) : Arm64.sxth rd rn = bfm true true rd rn 0 15 := by
  apply reg2_eq_bfm
  decide

theorem sxtw_eq (rd rn : ℤ) : Arm64.sxtw rd rn = bfm true true rd rn 0 31 := by
  apply reg2_eq_bfm
  decide

theorem isReg_XZR : IsReg XZR := ⟨by decide, by decide⟩

/-- A scaled offset divides without rest. -/
theorem IsScaled.tdiv {scale offset : ℤ} (hscale : 0 < scale) (h : IsScaled scale offset) :
    offset.tdiv scale = offset / scale ∧ offset / scale * scale = offset := by
  have hoffset := Int.ediv_mul_cancel (Int.dvd_of_emod_eq_zero h.1)
  have hnonneg : 0 ≤ offset := by
    rw [← hoffset]
    exact Int.mul_nonneg h.2.1 hscale.le
  exact ⟨Int.tdiv_eq_ediv_of_nonneg hnonneg, hoffset⟩

theorem wordBytes_pos (is64 : Bool) : 0 < wordBytes is64 := by cases is64 <;> decide

theorem width_pos (is64 : Bool) : 0 < width is64 := by cases is64 <;> decide

theorem invertCond_lt {c : ℤ} (h : 0 ≤ c ∧ c < 16) : 0 ≤ invertCond c ∧ invertCond c < 16 := by
  unfold invertCond
  split <;> omega

/-! ## The decoder on the words of the encoders -/

/-- Every instruction but the misread ones is decoded as it was encoded, or not at all. -/
theorem decode_encode_reads (i : Insn) (h : i.InRange) (hok : ¬ i.IsMisread) :
    (decode i.encode).op = .unknown ∨ i.Reads (decode i.encode) := by
  cases i with
  -- a form at a time: each is read back by the lemma of its field layout
  | nop => exact .inr rfl
  | movReg is64 rd rm =>
    refine .inr ?_
    show Reads3 _ _ _ _ _ (decode (Arm64.movReg is64 rd rm))
    rw [movReg_eq]
    refine logical_reads ?_ ?_ h.1 isReg_XZR h.2 ?_ ?_ ?_ <;> cases is64 <;> rfl
  | movz is64 rd imm16 hw | movn is64 rd imm16 hw | movk is64 rd imm16 hw =>
    refine .inr (movWide_reads ?_ ?_ ?_ ?_ h.1 h.2.1 h.2.2) <;> cases is64 <;> rfl
  | addReg is64 rd rn rm | subReg is64 rd rn rm =>
    refine .inr (addSub_reads ?_ ?_ h.1 h.2.1 h.2.2 ?_ ?_ ?_) <;> cases is64 <;> rfl
  | andReg is64 rd rn rm | orrReg is64 rd rn rm | eorReg is64 rd rn rm =>
    refine .inr (logical_reads ?_ ?_ h.1 h.2.1 h.2.2 ?_ ?_ ?_) <;> cases is64 <;> rfl
  | neg is64 rd rm =>
    refine .inr (addSub_reads ?_ ?_ h.1 isReg_XZR h.2 ?_ ?_ ?_) <;> cases is64 <;> rfl
  -- MVN is one of the misread forms: its word is taken for that of another operation
  | mvn is64 rd rm => exact absurd trivial hok
  | addImm is64 rd rn imm12 shift12 | subImm is64 rd rn imm12 shift12 =>
    refine .inr (imm12_reads ?_ ?_ ?_ ?_ h.1 h.2.1 h.2.2) <;> cases is64 <;> rfl
  | movSp rd rn =>
    refine .inr ?_
    show ReadsImm .addImm true rd rn (0 * if false then 2 ^ 12 else 1) (decode (imm12Op 0x91000000 rd rn 0 false))
    exact imm12_reads rfl rfl rfl rfl h.1 h.2 (by decide)
  | cmpReg is64 rn rm =>
    refine .inr ?_
    show Reads3 _ _ _ _ _ (decode (Arm64.cmpReg is64 rn rm))
    rw [cmpReg_eq]
    refine addSub_reads ?_ ?_ isReg_XZR h.1 h.2 ?_ ?_ ?_ <;> cases is64 <;> rfl
  | cmpImm is64 rn imm12 shift12 =>
    refine .inr ?_
    show ReadsImm _ _ _ _ _ (decode (Arm64.cmpImm is64 rn imm12 shift12))
    rw [cmpImm_eq]
    refine imm12_reads ?_ ?_ ?_ ?_ isReg_XZR h.1 h.2 <;> cases is64 <;> rfl
  | tst is64 rn rm => exact absurd trivial hok
  | uxtb rd rn =>
    refine .inr ?_
    rw [encode, uxtb_eq]
    exact bfm_reads false false h.1 h.2 (by decide) (by decide)
  | uxth rd rn =>
    refine .inr ?_
    rw [encode, uxth_eq]
    exact bfm_reads false false h.1 h.2 (by decide) (by decide)
  | sxtb rd rn =>
    refine .inr ?_
    rw [encode, sxtb_eq]
    exact bfm_reads true true h.1 h.2 (by decide) (by decide)
  | sxth rd rn =>
    refine .inr ?_
    rw [encode, sxth_eq]
    exact bfm_reads true true h.1 h.2 (by decide) (by decide)
  | sxtw rd rn =>
    refine .inr ?_
    rw [encode, sxtw_eq]
    exact bfm_reads true true h.1 h.2 (by decide) (by decide)
  | madd is64 rd rn rm ra | msub is64 rd rn rm ra =>
    refine .inr (multiply_reads ?_ ?_ ?_ ?_ ?_ ?_ h.1 h.2.1 h.2.2.1 h.2.2.2) <;> cases is64 <;> rfl
  | mul is64 rd rn rm =>
    refine .inr (multiply_reads ?_ ?_ ?_ ?_ ?_ ?_ h.1 h.2.1 h.2.2 isReg_XZR) <;> cases is64 <;> rfl
  | sdiv is64 rd rn rm | udiv is64 rd rn rm | lslv is64 rd rn rm | lsrv is64 rd rn rm | asrv is64 rd rn rm =>
    refine .inr (twoSource_reads ?_ ?_ h.1 h.2.1 h.2.2 ?_ ?_ ?_) <;> cases is64 <;> rfl
  | lslImm is64 rd rn shift =>
    have hmod : (width is64 - shift) % width is64 = -shift % width is64 := by
      rw [sub_eq_add_neg, Int.add_emod_left]
    have hwidth := width_pos is64
    have hlo := h.2.2.1
    have hhi := h.2.2.2
    refine .inr ?_
    show ReadsBfm _ _ _ _ _ _ _
    rw [hmod]
    exact bfm_reads is64 false h.1 h.2.1 ⟨Int.emod_nonneg _ hwidth.ne', Int.emod_lt_of_pos _ hwidth⟩
      ⟨by omega, by omega⟩
  | lsrImm is64 rd rn shift | asrImm is64 rd rn shift =>
    have hwidth := width_pos is64
    exact .inr (bfm_reads is64 _ h.1 h.2.1 h.2.2 ⟨by omega, by omega⟩)
  | csel is64 rd rn rm cond =>
    refine .inr (select_reads ?_ ?_ ?_ ?_ ?_ h.1 h.2.1 h.2.2.1 h.2.2.2) <;> cases is64 <;> rfl
  | cset is64 rd cond =>
    refine .inr (select_reads ?_ ?_ ?_ ?_ ?_ h.1 isReg_XZR isReg_XZR (invertCond_lt h.2))
    all_goals
      cases is64 <;> rfl
  | strImm is64 rt rn offset | ldrImm is64 rt rn offset =>
    obtain ⟨htdiv, hoffset⟩ := h.2.2.tdiv (wordBytes_pos is64)
    refine .inr ?_
    show ReadsOffset _ is64 rt rn offset (decode (offsetOp _ rt rn (offset.tdiv (wordBytes is64))))
    rw [htdiv, ← hoffset, Int.mul_ediv_cancel _ (wordBytes_pos is64).ne']
    refine offset_reads ?_ h.1 h.2.1 h.2.2.2 ?_ ?_ ?_ <;> cases is64 <;> rfl
  | strbImm rt rn offset | ldrbImm rt rn offset | strhImm rt rn offset | ldrhImm rt rn offset =>
    exact absurd trivial hok
  | fmul isDouble fd fn fm | fdiv isDouble fd fn fm | fadd isDouble fd fn fm | fsub isDouble fd fn fm =>
    refine .inl (float3_unknown ?_ ?_ h.1 h.2.1 h.2.2 ?_) <;> cases isDouble <;> rfl
  | fcmp isDouble fn fm =>
    refine .inl ?_
    rw [encode, fcmp_eq]
    refine float3_unknown ?_ ?_ (by unfold IsReg; decide) h.1 h.2 ?_ <;> cases isDouble <;> rfl
  | fneg isDouble fd fn | scvtf isDouble fd fn | fcvtzs isDouble fd fn | ucvtf isDouble fd fn
  | fcvtzu isDouble fd fn | fcvt isDouble fd fn | fmovGp isDouble fd fn | fmovToGp isDouble fd fn
  | fmovReg isDouble fd fn =>
    refine .inl (float2_unknown ?_ h.1 h.2 ?_) <;> cases isDouble <;> rfl
  | fcvtH2s fd fn | fcvtS2h fd fn => exact .inl (float2_unknown rfl h.1 h.2 rfl)
  | ldrFp isDouble ft rn offset | strFp isDouble ft rn offset =>
    refine .inl ?_
    show (decode (offsetOp _ ft rn (offset.tdiv (wordBytes isDouble)))).op = _
    rw [(h.2.2.tdiv (wordBytes_pos isDouble)).1]
    refine offset_unknown ?_ h.1 h.2.1 h.2.2.2 ?_ <;> cases isDouble <;> rfl
  | stpPre is64 rt rt2 rn offset | ldpPost is64 rt rt2 rn offset =>
    have hoffset := Int.ediv_mul_cancel (Int.dvd_of_emod_eq_zero h.2.2.2.1)
    have htdiv := Int.tdiv_eq_ediv_of_dvd (Int.dvd_of_emod_eq_zero h.2.2.2.1)
    refine .inr ?_
    show ReadsPair _ is64 rt rt2 rn offset (decode (pairOp _ rt rt2 rn (offset.tdiv (wordBytes is64))))
    rw [htdiv, ← hoffset, Int.mul_ediv_cancel _ (wordBytes_pos is64).ne']
    refine pair_reads ?_ ?_ ?_ ?_ h.1 h.2.1 h.2.2.1 h.2.2.2.2 <;> cases is64 <;> rfl
  | b offset => exact .inr (b_reads h)
  | bl offset => exact .inr (bl_reads h)
  | bcond cond offset =>
    obtain ⟨hop, hcond, himm⟩ := bcond_reads cond h.2
    exact .inr ⟨hop, hcond.trans (Int.emod_eq_of_lt h.1.1 h.1.2), himm⟩
  | cbz is64 rt offset =>
    obtain ⟨hop, h64, hrt, himm⟩ := cbz_reads is64 rt h.2
    exact .inr ⟨hop, h64, hrt.trans (Int.emod_eq_of_lt h.1.1 h.1.2), himm⟩
  | cbnz is64 rt offset =>
    obtain ⟨hop, h64, hrt, himm⟩ := cbnz_reads is64 rt h.2
    exact .inr ⟨hop, h64, hrt.trans (Int.emod_eq_of_lt h.1.1 h.1.2), himm⟩
  | br rn => exact .inr (br_reads h)
  | blr rn => exact .inr (blr_reads h)
  | ret rn => exact .inr (ret_reads h)

/-- The words of the six are read as those of other operations. -/
theorem decode_encode_misread (i : Insn) (h : i.InRange) (hbad : i.IsMisread) :
    (decode i.encode).op ≠ .unknown ∧ ¬ i.Reads (decode i.encode) := by
  -- a narrow access is read as a word access, whatever its offset
  have hnarrow {base : BitVec 32} {rt rn scaled : ℤ} (op : DisOp) (hop : op ≠ .unknown) (ht : IsReg rt)
      (hn : IsReg rn) (hs : 0 ≤ scaled ∧ scaled < 2 ^ 12) (hlow : base.toNat % 2 ^ 22 = 0)
      (hclass : base.toNat / 2 ^ 24 % 64 = 0x39) (h64 : decide (bits base 30 2 = 3) = false)
      (hread : (if bits base 22 2 = 0 then .strImm else .ldrImm) = op) :
      (decode (offsetOp base rt rn scaled)).op ≠ .unknown := by
    rw [(offset_reads hlow ht hn hs hclass h64 hread).1]
    exact hop
  cases i with
  | mvn is64 rd rm =>
    have hread : Reads3 .orrReg is64 rd XZR rm (decode (Arm64.mvn is64 rd rm)) := by
      rw [mvn_eq]
      refine logical_reads ?_ ?_ h.1 isReg_XZR h.2 ?_ ?_ ?_ <;> cases is64 <;> rfl
    refine ⟨?_, id⟩
    rw [encode, hread.1]
    decide
  | tst is64 rn rm =>
    have hread : Reads3 .orrReg is64 XZR rn rm (decode (Arm64.tst is64 rn rm)) := by
      rw [tst_eq]
      refine logical_reads ?_ ?_ isReg_XZR h.1 h.2 ?_ ?_ ?_ <;> cases is64 <;> rfl
    refine ⟨?_, id⟩
    rw [encode, hread.1]
    decide
  | strbImm rt rn offset =>
    refine ⟨hnarrow .strImm (by decide) h.1 h.2.1 ?_ rfl rfl rfl rfl, id⟩
    have hscaled := h.2.2.2
    rwa [Int.ediv_one] at hscaled
  | ldrbImm rt rn offset =>
    refine ⟨hnarrow .ldrImm (by decide) h.1 h.2.1 ?_ rfl rfl rfl rfl, id⟩
    have hscaled := h.2.2.2
    rwa [Int.ediv_one] at hscaled
  | strhImm rt rn offset =>
    refine ⟨hnarrow .strImm (by decide) h.1 h.2.1 ?_ rfl rfl rfl rfl, id⟩
    rw [(h.2.2.tdiv (by decide)).1]
    exact h.2.2.2
  | ldrhImm rt rn offset =>
    refine ⟨hnarrow .ldrImm (by decide) h.1 h.2.1 ?_ rfl rfl rfl rfl, id⟩
    rw [(h.2.2.tdiv (by decide)).1]
    exact h.2.2.2
  | _ => exact absurd hbad id

/-- Among the words of in-range operands, the decoder inverts or refuses exactly those of the other encoders. -/
theorem decode_encode_sound_iff (i : Insn) (h : i.InRange) :
    (decode i.encode).op = .unknown ∨ i.Reads (decode i.encode) ↔ ¬ i.IsMisread := by
  constructor
  · intro hsound hbad
    obtain ⟨hop, hread⟩ := decode_encode_misread i h hbad
    exact hsound.elim hop hread
  · exact decode_encode_reads i h

end Insn

end Mettle.Arm64

import Mathlib

/-!
# The AArch64 encoders

The functions of `codegen/binary/arm64_encode.c`, each one instruction word from its operands. Operands are
C integers, cut to their fields by masks; a register is a number from 0 to 31.
-/

namespace Mettle.Arm64

/-- An operand cut to a mask and moved to its field. -/
def field (x : ℤ) (mask : BitVec 32) (lo : ℕ) : BitVec 32 := (BitVec.ofInt 32 x &&& mask) <<< lo

/-- `R5`, at its place. -/
def R5 (x : ℤ) (lo : ℕ) : BitVec 32 := field x 0x1F lo

/-- `ARM64_XZR`. -/
def XZR : ℤ := 31

/-- `arm64_invert_cond`. -/
def invertCond (c : ℤ) : ℤ := if c % 2 = 0 then c + 1 else c - 1

/-- `arm64_nop`. -/
def nop : BitVec 32 := 0xD503201F

/-- The encoders that put two registers into a base word. -/
def reg2 (base : BitVec 32) (rd rn : ℤ) : BitVec 32 := base ||| R5 rn 5 ||| R5 rd 0

/-- The encoders that put three registers into a base word. -/
def reg3 (base : BitVec 32) (rd rn rm : ℤ) : BitVec 32 := base ||| R5 rm 16 ||| R5 rn 5 ||| R5 rd 0

/-- `arm64_mov_reg`. -/
def movReg (is64 : Bool) (rd rm : ℤ) : BitVec 32 :=
  (if is64 then 0xAA0003E0 else 0x2A0003E0 : BitVec 32) ||| R5 rm 16 ||| R5 rd 0

/-- The move-wide encoders. -/
def movWide (base : BitVec 32) (rd imm16 hw : ℤ) : BitVec 32 :=
  base ||| field hw 3 21 ||| field imm16 0xFFFF 5 ||| R5 rd 0

/-- `arm64_movz`. -/
def movz (is64 : Bool) (rd imm16 hw : ℤ) : BitVec 32 := movWide (if is64 then 0xD2800000 else 0x52800000) rd imm16 hw

/-- `arm64_movn`. -/
def movn (is64 : Bool) (rd imm16 hw : ℤ) : BitVec 32 := movWide (if is64 then 0x92800000 else 0x12800000) rd imm16 hw

/-- `arm64_movk`. -/
def movk (is64 : Bool) (rd imm16 hw : ℤ) : BitVec 32 := movWide (if is64 then 0xF2800000 else 0x72800000) rd imm16 hw

/-- `arm64_add_reg`. -/
def addReg (is64 : Bool) (rd rn rm : ℤ) : BitVec 32 := reg3 (if is64 then 0x8B000000 else 0x0B000000) rd rn rm

/-- `arm64_sub_reg`. -/
def subReg (is64 : Bool) (rd rn rm : ℤ) : BitVec 32 := reg3 (if is64 then 0xCB000000 else 0x4B000000) rd rn rm

/-- `arm64_and_reg`. -/
def andReg (is64 : Bool) (rd rn rm : ℤ) : BitVec 32 := reg3 (if is64 then 0x8A000000 else 0x0A000000) rd rn rm

/-- `arm64_orr_reg`. -/
def orrReg (is64 : Bool) (rd rn rm : ℤ) : BitVec 32 := reg3 (if is64 then 0xAA000000 else 0x2A000000) rd rn rm

/-- `arm64_eor_reg`. -/
def eorReg (is64 : Bool) (rd rn rm : ℤ) : BitVec 32 := reg3 (if is64 then 0xCA000000 else 0x4A000000) rd rn rm

/-- `arm64_neg`. -/
def neg (is64 : Bool) (rd rm : ℤ) : BitVec 32 := subReg is64 rd XZR rm

/-- `arm64_mvn`. -/
def mvn (is64 : Bool) (rd rm : ℤ) : BitVec 32 :=
  (if is64 then 0xAA2003E0 else 0x2A2003E0 : BitVec 32) ||| R5 rm 16 ||| R5 rd 0

/-- The encoders with a 12-bit immediate that may be shifted. -/
def imm12Op (base : BitVec 32) (rd rn imm12 : ℤ) (shift12 : Bool) : BitVec 32 :=
  base ||| (if shift12 then (1 : BitVec 32) <<< 22 else 0) ||| field imm12 0xFFF 10 ||| R5 rn 5 ||| R5 rd 0

/-- `arm64_add_imm`. -/
def addImm (is64 : Bool) (rd rn imm12 : ℤ) (shift12 : Bool) : BitVec 32 :=
  imm12Op (if is64 then 0x91000000 else 0x11000000) rd rn imm12 shift12

/-- `arm64_mov_sp`. -/
def movSp (rd rn : ℤ) : BitVec 32 := addImm true rd rn 0 false

/-- `arm64_sub_imm`. -/
def subImm (is64 : Bool) (rd rn imm12 : ℤ) (shift12 : Bool) : BitVec 32 :=
  imm12Op (if is64 then 0xD1000000 else 0x51000000) rd rn imm12 shift12

/-- `arm64_cmp_reg`. -/
def cmpReg (is64 : Bool) (rn rm : ℤ) : BitVec 32 :=
  (if is64 then 0xEB00001F else 0x6B00001F : BitVec 32) ||| R5 rm 16 ||| R5 rn 5

/-- `arm64_cmp_imm`. -/
def cmpImm (is64 : Bool) (rn imm12 : ℤ) (shift12 : Bool) : BitVec 32 :=
  (if is64 then 0xF100001F else 0x7100001F : BitVec 32) ||| (if shift12 then (1 : BitVec 32) <<< 22 else 0) |||
    field imm12 0xFFF 10 ||| R5 rn 5

/-- `arm64_tst`. -/
def tst (is64 : Bool) (rn rm : ℤ) : BitVec 32 :=
  (if is64 then 0xEA00001F else 0x6A00001F : BitVec 32) ||| R5 rm 16 ||| R5 rn 5

/-- `arm64_uxtb`. -/
def uxtb (rd rn : ℤ) : BitVec 32 := reg2 ((0x53000000 : BitVec 32) ||| (7 : BitVec 32) <<< 10) rd rn

/-- `arm64_uxth`. -/
def uxth (rd rn : ℤ) : BitVec 32 := reg2 ((0x53000000 : BitVec 32) ||| (15 : BitVec 32) <<< 10) rd rn

/-- `arm64_sxtb`. -/
def sxtb (rd rn : ℤ) : BitVec 32 := reg2 ((0x93400000 : BitVec 32) ||| (7 : BitVec 32) <<< 10) rd rn

/-- `arm64_sxth`. -/
def sxth (rd rn : ℤ) : BitVec 32 := reg2 ((0x93400000 : BitVec 32) ||| (15 : BitVec 32) <<< 10) rd rn

/-- `arm64_sxtw`. -/
def sxtw (rd rn : ℤ) : BitVec 32 := reg2 ((0x93400000 : BitVec 32) ||| (31 : BitVec 32) <<< 10) rd rn

/-- The multiply-add encoders. -/
def reg4 (base : BitVec 32) (rd rn rm ra : ℤ) : BitVec 32 :=
  base ||| R5 rm 16 ||| R5 ra 10 ||| R5 rn 5 ||| R5 rd 0

/-- `arm64_madd`. -/
def madd (is64 : Bool) (rd rn rm ra : ℤ) : BitVec 32 := reg4 (if is64 then 0x9B000000 else 0x1B000000) rd rn rm ra

/-- `arm64_msub`. -/
def msub (is64 : Bool) (rd rn rm ra : ℤ) : BitVec 32 := reg4 (if is64 then 0x9B008000 else 0x1B008000) rd rn rm ra

/-- `arm64_mul`. -/
def mul (is64 : Bool) (rd rn rm : ℤ) : BitVec 32 := madd is64 rd rn rm XZR

/-- `arm64_sdiv`. -/
def sdiv (is64 : Bool) (rd rn rm : ℤ) : BitVec 32 := reg3 (if is64 then 0x9AC00C00 else 0x1AC00C00) rd rn rm

/-- `arm64_udiv`. -/
def udiv (is64 : Bool) (rd rn rm : ℤ) : BitVec 32 := reg3 (if is64 then 0x9AC00800 else 0x1AC00800) rd rn rm

/-- `arm64_lslv`. -/
def lslv (is64 : Bool) (rd rn rm : ℤ) : BitVec 32 := reg3 (if is64 then 0x9AC02000 else 0x1AC02000) rd rn rm

/-- `arm64_lsrv`. -/
def lsrv (is64 : Bool) (rd rn rm : ℤ) : BitVec 32 := reg3 (if is64 then 0x9AC02400 else 0x1AC02400) rd rn rm

/-- `arm64_asrv`. -/
def asrv (is64 : Bool) (rd rn rm : ℤ) : BitVec 32 := reg3 (if is64 then 0x9AC02800 else 0x1AC02800) rd rn rm

/-- `arm64_bfm`. -/
def bfm (is64 sbfm : Bool) (rd rn immr imms : ℤ) : BitVec 32 :=
  let mask : BitVec 32 := if is64 then 63 else 31
  let base : BitVec 32 :=
    if sbfm then if is64 then 0x93400000 else 0x13000000 else if is64 then 0xD3400000 else 0x53000000
  base ||| field immr mask 16 ||| field imms mask 10 ||| R5 rn 5 ||| R5 rd 0

/-- The width of a register. -/
def width (is64 : Bool) : ℤ := if is64 then 64 else 32

/-- `arm64_lsl_imm`. -/
def lslImm (is64 : Bool) (rd rn shift : ℤ) : BitVec 32 :=
  bfm is64 false rd rn (-shift % width is64) (width is64 - 1 - shift)

/-- `arm64_lsr_imm`. -/
def lsrImm (is64 : Bool) (rd rn shift : ℤ) : BitVec 32 := bfm is64 false rd rn shift (width is64 - 1)

/-- `arm64_asr_imm`. -/
def asrImm (is64 : Bool) (rd rn shift : ℤ) : BitVec 32 := bfm is64 true rd rn shift (width is64 - 1)

/-- The conditional selects. -/
def select (base : BitVec 32) (rd rn rm cond : ℤ) : BitVec 32 :=
  base ||| R5 rm 16 ||| field cond 0xF 12 ||| R5 rn 5 ||| R5 rd 0

/-- `arm64_csel`. -/
def csel (is64 : Bool) (rd rn rm cond : ℤ) : BitVec 32 :=
  select (if is64 then 0x9A800000 else 0x1A800000) rd rn rm cond

/-- `arm64_cset`. -/
def cset (is64 : Bool) (rd cond : ℤ) : BitVec 32 :=
  select (if is64 then 0x9A800400 else 0x1A800400) rd XZR XZR (invertCond cond)

/-- The loads and stores with a scaled offset. -/
def offsetOp (base : BitVec 32) (rt rn scaled : ℤ) : BitVec 32 :=
  base ||| field scaled 0xFFF 10 ||| R5 rn 5 ||| R5 rt 0

/-- The size of a word in bytes. -/
def wordBytes (is64 : Bool) : ℤ := if is64 then 8 else 4

/-- `arm64_str_imm`. -/
def strImm (is64 : Bool) (rt rn offsetBytes : ℤ) : BitVec 32 :=
  offsetOp (if is64 then 0xF9000000 else 0xB9000000) rt rn (offsetBytes.tdiv (wordBytes is64))

/-- `arm64_ldr_imm`. -/
def ldrImm (is64 : Bool) (rt rn offsetBytes : ℤ) : BitVec 32 :=
  offsetOp (if is64 then 0xF9400000 else 0xB9400000) rt rn (offsetBytes.tdiv (wordBytes is64))

/-- `arm64_strb_imm`. -/
def strbImm (rt rn offset : ℤ) : BitVec 32 := offsetOp 0x39000000 rt rn offset

/-- `arm64_ldrb_imm`. -/
def ldrbImm (rt rn offset : ℤ) : BitVec 32 := offsetOp 0x39400000 rt rn offset

/-- `arm64_strh_imm`. -/
def strhImm (rt rn offsetBytes : ℤ) : BitVec 32 := offsetOp 0x79000000 rt rn (offsetBytes.tdiv 2)

/-- `arm64_ldrh_imm`. -/
def ldrhImm (rt rn offsetBytes : ℤ) : BitVec 32 := offsetOp 0x79400000 rt rn (offsetBytes.tdiv 2)

/-- `fp2`. -/
def fp2 (isDouble : Bool) (dbase : BitVec 32) (fd fn fm : ℤ) : BitVec 32 :=
  reg3 (if isDouble then dbase else dbase &&& ~~~((1 : BitVec 32) <<< 22)) fd fn fm

/-- `arm64_fmul`. -/
def fmul (isDouble : Bool) (fd fn fm : ℤ) : BitVec 32 := fp2 isDouble 0x1E600800 fd fn fm

/-- `arm64_fdiv`. -/
def fdiv (isDouble : Bool) (fd fn fm : ℤ) : BitVec 32 := fp2 isDouble 0x1E601800 fd fn fm

/-- `arm64_fadd`. -/
def fadd (isDouble : Bool) (fd fn fm : ℤ) : BitVec 32 := fp2 isDouble 0x1E602800 fd fn fm

/-- `arm64_fsub`. -/
def fsub (isDouble : Bool) (fd fn fm : ℤ) : BitVec 32 := fp2 isDouble 0x1E603800 fd fn fm

/-- `arm64_fneg`. -/
def fneg (isDouble : Bool) (fd fn : ℤ) : BitVec 32 := reg2 (if isDouble then 0x1E614000 else 0x1E214000) fd fn

/-- `arm64_fcmp`. -/
def fcmp (isDouble : Bool) (fn fm : ℤ) : BitVec 32 :=
  (if isDouble then 0x1E602000 else 0x1E202000 : BitVec 32) ||| R5 fm 16 ||| R5 fn 5

/-- `arm64_scvtf`. -/
def scvtf (isDouble : Bool) (fd xn : ℤ) : BitVec 32 := reg2 (if isDouble then 0x9E620000 else 0x9E220000) fd xn

/-- `arm64_fcvtzs`. -/
def fcvtzs (isDouble : Bool) (xd fn : ℤ) : BitVec 32 := reg2 (if isDouble then 0x9E780000 else 0x9E380000) xd fn

/-- `arm64_ucvtf`. -/
def ucvtf (isDouble : Bool) (fd xn : ℤ) : BitVec 32 := reg2 (if isDouble then 0x9E630000 else 0x9E230000) fd xn

/-- `arm64_fcvtzu`. -/
def fcvtzu (isDouble : Bool) (xd fn : ℤ) : BitVec 32 := reg2 (if isDouble then 0x9E790000 else 0x9E390000) xd fn

/-- `arm64_fcvt`. -/
def fcvt (toDouble : Bool) (fd fn : ℤ) : BitVec 32 := reg2 (if toDouble then 0x1E22C000 else 0x1E624000) fd fn

/-- `arm64_fcvt_h2s`. -/
def fcvtH2s (sd hn : ℤ) : BitVec 32 := reg2 0x1EE24000 sd hn

/-- `arm64_fcvt_s2h`. -/
def fcvtS2h (hd sn : ℤ) : BitVec 32 := reg2 0x1E23C000 hd sn

/-- `arm64_fmov_gp`. -/
def fmovGp (isDouble : Bool) (fd xn : ℤ) : BitVec 32 := reg2 (if isDouble then 0x9E670000 else 0x1E270000) fd xn

/-- `arm64_fmov_to_gp`. -/
def fmovToGp (isDouble : Bool) (xd fn : ℤ) : BitVec 32 := reg2 (if isDouble then 0x9E660000 else 0x1E260000) xd fn

/-- `arm64_fmov_reg`. -/
def fmovReg (isDouble : Bool) (fd fn : ℤ) : BitVec 32 := reg2 (if isDouble then 0x1E604000 else 0x1E204000) fd fn

/-- `arm64_ldr_fp`. -/
def ldrFp (isDouble : Bool) (ft rn offsetBytes : ℤ) : BitVec 32 :=
  offsetOp (if isDouble then 0xFD400000 else 0xBD400000) ft rn (offsetBytes.tdiv (wordBytes isDouble))

/-- `arm64_str_fp`. -/
def strFp (isDouble : Bool) (ft rn offsetBytes : ℤ) : BitVec 32 :=
  offsetOp (if isDouble then 0xFD000000 else 0xBD000000) ft rn (offsetBytes.tdiv (wordBytes isDouble))

/-- The register pairs. -/
def pairOp (base : BitVec 32) (rt rt2 rn scaled : ℤ) : BitVec 32 :=
  base ||| field scaled 0x7F 15 ||| R5 rt2 10 ||| R5 rn 5 ||| R5 rt 0

/-- `arm64_stp_pre`. -/
def stpPre (is64 : Bool) (rt rt2 rn offsetBytes : ℤ) : BitVec 32 :=
  pairOp (if is64 then 0xA9800000 else 0x29800000) rt rt2 rn (offsetBytes.tdiv (wordBytes is64))

/-- `arm64_ldp_post`. -/
def ldpPost (is64 : Bool) (rt rt2 rn offsetBytes : ℤ) : BitVec 32 :=
  pairOp (if is64 then 0xA8C00000 else 0x28C00000) rt rt2 rn (offsetBytes.tdiv (wordBytes is64))

/-- `arm64_b`. -/
def b (offsetBytes : ℤ) : BitVec 32 := 0x14000000 ||| field (offsetBytes / 4) 0x03FFFFFF 0

/-- `arm64_bl`. -/
def bl (offsetBytes : ℤ) : BitVec 32 := 0x94000000 ||| field (offsetBytes / 4) 0x03FFFFFF 0

/-- `arm64_bcond`. -/
def bcond (cond offsetBytes : ℤ) : BitVec 32 :=
  0x54000000 ||| field (offsetBytes / 4) 0x7FFFF 5 ||| field cond 0xF 0

/-- `arm64_cbz`. -/
def cbz (is64 : Bool) (rt offsetBytes : ℤ) : BitVec 32 :=
  (if is64 then 0xB4000000 else 0x34000000 : BitVec 32) ||| field (offsetBytes / 4) 0x7FFFF 5 ||| R5 rt 0

/-- `arm64_cbnz`. -/
def cbnz (is64 : Bool) (rt offsetBytes : ℤ) : BitVec 32 :=
  (if is64 then 0xB5000000 else 0x35000000 : BitVec 32) ||| field (offsetBytes / 4) 0x7FFFF 5 ||| R5 rt 0

/-- `arm64_br`. -/
def br (rn : ℤ) : BitVec 32 := 0xD61F0000 ||| R5 rn 5

/-- `arm64_blr`. -/
def blr (rn : ℤ) : BitVec 32 := 0xD63F0000 ||| R5 rn 5

/-- `arm64_ret`. -/
def ret (rn : ℤ) : BitVec 32 := 0xD65F0000 ||| R5 rn 5

end Mettle.Arm64

import Mettle.Lib.X86
import Mettle.Linker.Gc

/-!
# Applying relocations

The addresses of the symbols are written into the merged sections (`linker/relocation.c`). A load of an address from
the global offset table is relaxed on the way: there is no such table, so the instruction is rewritten to compute the
address, or to take it as an immediate. Addresses and offsets are 64-bit words, and a value is a signed one.
-/

open List

namespace Mettle.Linker

abbrev Byte := BitVec 8

/-- `relocation_gotpcrelx_group_extension`. -/
def gotpcrelxGroupExtension (opcode : Byte) : Option Byte :=
  if opcode = 0x03 then some 0
  else if opcode = 0x0B then some 1
  else if opcode = 0x13 then some 2
  else if opcode = 0x1B then some 3
  else if opcode = 0x23 then some 4
  else if opcode = 0x2B then some 5
  else if opcode = 0x33 then some 6
  else if opcode = 0x3B then some 7
  else none

/-- `relocation_relax_gotpcrelx`: the data with the instruction before `patchOffset` rewritten, and whether the
field there becomes an immediate. -/
def relocationRelaxGotpcrelx (data : List Byte) (patchOffset : ℕ) : Option (List Byte × Bool) :=
  if patchOffset < 2 then none
  else
    let opcode := data.getD (patchOffset - 2) 0
    let modrm := data.getD (patchOffset - 1) 0
    if modrm &&& 0xC7 ≠ 0x05 then none
    else if opcode = 0x8B then some (data.set (patchOffset - 2) 0x8D, false)
    else if (gotpcrelxGroupExtension opcode).isNone && opcode ≠ 0x85 then none
    else if patchOffset < 3 then none
    else
      let rex := data.getD (patchOffset - 3) 0
      if rex &&& 0xF0 ≠ 0x40 then none
      else
        let destination := (modrm >>> 3) &&& 0x07
        let extension := if opcode = 0x85 then 0 else (gotpcrelxGroupExtension opcode).getD 0
        let data := data.set (patchOffset - 2) (if opcode = 0x85 then 0xF7 else 0x81)
        let data := data.set (patchOffset - 1) (0xC0 ||| (extension <<< 3) ||| destination)
        some (data.set (patchOffset - 3) ((rex &&& 0xFA) ||| ((rex &&& 0x04) >>> 2)), true)

/-- How many bytes a relocation writes: nothing, when the kind is not supported. -/
def LinkRelocKind.width : LinkRelocKind → Option ℕ
  | .abs64 => some 8
  | .pc32 | .abs32 | .imageRel32 | .secrel32 | .tpoff32 | .gotpcrelx32 => some 4
  | .none | .gotpcrel32 => Option.none

/-- The addend of a relocation: its own, or what stands in the field. -/
def LinkReloc.addendAt (relocation : LinkReloc) (data : List Byte) (patchOffset width : ℕ) : BitVec 64 :=
  if relocation.addendIsExplicit then BitVec.ofInt 64 relocation.addend
  else if width = 8 then BitVec.ofNat 64 (Bytes.leValue (Bytes.readAt data patchOffset 8))
  else (Bytes.load32 data patchOffset).signExtend 64

/-- Write a value that a signed doubleword can hold. -/
def writeSigned32 (data : List Byte) (patchOffset : ℕ) (value : BitVec 64) : Option (List Byte) :=
  if value.toInt < -2 ^ 31 ∨ 2 ^ 31 - 1 < value.toInt then none
  else some (Bytes.store32 data patchOffset (value.setWidth 32))

/-- Write a value that an unsigned doubleword can hold. -/
def writeUnsigned32 (data : List Byte) (patchOffset : ℕ) (value : BitVec 64) : Option (List Byte) :=
  if value.toInt < 0 ∨ 2 ^ 32 - 1 < value.toInt then none
  else some (Bytes.store32 data patchOffset (value.setWidth 32))

/-- The body of the loop of `link_apply_section_relocations`: the data of the merged section with a relocation
applied. The section lies at `address` and the part that the relocation belongs to at `sectionOffset` in it. -/
def linkApplyRelocation (data : List Byte) (address sectionOffset imageBase tlsSize : BitVec 64)
    (relocation : LinkReloc) (target : RelocationTarget) : Option (List Byte) :=
  let patch := sectionOffset + relocation.offset
  let patchAddress := address + patch
  let patchOffset := patch.toNat
  relocation.kind.width.bind fun width =>
    if data.length < (patch + BitVec.ofNat 64 width).toNat then none
    else
      let addend := relocation.addendAt data patchOffset width
      let value := target.virtualAddress + addend
      let relative := value - patchAddress - if relocation.addendIsExplicit then 0 else 4
      match relocation.kind with
      | .gotpcrelx32 =>
        (relocationRelaxGotpcrelx data patchOffset).bind fun (data, becomesAbsolute) =>
          if becomesAbsolute then
            if (value + 4).toInt < 0 ∨ 2 ^ 31 - 1 < (value + 4).toInt then none
            else some (Bytes.store32 data patchOffset ((value + 4).setWidth 32))
          else writeSigned32 data patchOffset relative
      | .pc32 => writeSigned32 data patchOffset relative
      | .abs64 =>
        if value.toInt < 0 then none
        else some (Bytes.writeAt data patchOffset (Bytes.leBytes 8 value.toNat))
      | .abs32 => writeUnsigned32 data patchOffset value
      | .imageRel32 =>
        writeUnsigned32 data patchOffset
          (if imageBase ≠ 0 ∧ imageBase ≤ target.virtualAddress then value - imageBase else value)
      | .secrel32 => writeUnsigned32 data patchOffset (target.mergedOffset + addend)
      | .tpoff32 => writeSigned32 data patchOffset (target.mergedOffset + addend - tlsSize)
      | _ => some data

/-!
## Relaxing a load from the global offset table

The rewritten instruction does what the original one does with a slot that holds the address, except where the field
had an implicit addend, where the rewriting takes the last byte of the instruction before for a REX prefix and changes
it, and where an immediate of a word takes fewer bytes than the displacement did.
-/

open X86 (Insn Prefixed Prefixes Rex AluOp LoadOpcode decode exec word32)

/-- A load from the global offset table between other bytes. -/
structure GotLoad where
  before : List Byte
  bytes : List Byte
  after : List Byte
  insn : Insn
  decodes : decode (bytes ++ after) = some (insn, bytes.length)
  isLoad : insn.isLoad = true

namespace GotLoad

def data (g : GotLoad) : List Byte := g.before ++ (g.bytes ++ g.after)

/-- Where the field of the instruction lies. -/
def patchOffset (g : GotLoad) : ℕ := g.before.length + g.bytes.length - 4

/-- The rewritten data has an instruction of the same length there, which does what the original one does with a slot
that holds the target, and the same bytes around it. -/
def Preserved (g : GotLoad) (next target : BitVec 64) (data : List Byte) : Prop :=
  ∃ bytes insn, data = g.before ++ (bytes ++ g.after) ∧ bytes.length = g.bytes.length ∧
    decode (bytes ++ g.after) = some (insn, g.bytes.length) ∧
    ∀ (load : BitVec 64 → BitVec 64) (disp : BitVec 32) (s : X86.State), load (next + disp.signExtend 64) = target →
      exec next load s insn = exec next load s (g.insn.withDisp disp)

/-- When the rewriting is right. A load becomes an address computation, for which the addend must be the
relocation's own; another instruction takes an immediate, and has a REX prefix and no operand size of a word, or else
the last byte of the instruction before is not changed. -/
def Relaxable (g : GotLoad) (relocation : LinkReloc) : Prop :=
  if g.insn.isMov then relocation.addendIsExplicit = true
  else
    match (X86.takePrefixes g.bytes).1 with
    | { opsize, rex := some rex } => rex.w = true ∨ opsize = false
    | { rex := none, .. } => ∀ byte, g.before.getLast? = some byte → byte &&& 0x05 = 0

end GotLoad

/-! ## Bytes of the rewriting -/

/-- The ModRM byte of an instruction on the register that it named before. -/
def directModrm (extension modrm : Byte) : Byte := 0xC0 ||| (extension <<< 3) ||| ((modrm >>> 3) &&& 0x07)

/-- The REX prefix with the extension of the register moved. -/
def directRex (rex : Byte) : Byte := (rex &&& 0xFA) ||| ((rex &&& 0x04) >>> 2)

/-- The rewritten byte names a register and the operation. -/
theorem directModrm_spec : ∀ modrm : Byte, ∀ extension < 8,
    directModrm (BitVec.ofNat 8 extension) modrm &&& 0xC0 = 0xC0 ∧
      (directModrm (BitVec.ofNat 8 extension) modrm >>> 3).toNat % 8 = extension ∧
      (directModrm (BitVec.ofNat 8 extension) modrm).toNat % 8 = (modrm >>> 3).toNat % 8 := by
  decide

/-- The rewritten prefix moves the register's bit and keeps the others. -/
theorem directRex_spec : ∀ byte : Byte, ∀ rex, Rex.ofByte byte = some rex →
    Rex.ofByte (directRex byte) = some { rex with r := false, b := rex.r } := by
  have h : ∀ byte : Byte, Rex.ofByte (directRex byte) =
      (Rex.ofByte byte).map fun rex => { rex with r := false, b := rex.r } := by
    decide
  intro byte rex hrex
  rw [h, hrex]
  rfl

/-- It is the same prefix when both bits are clear. -/
theorem directRex_eq_iff : ∀ byte : Byte, directRex byte = byte ↔ byte &&& 0x05 = 0 := by
  decide

/-- The number of a group and the opcode it comes from name one operation. -/
theorem gotpcrelxGroupExtension_spec : ∀ (opcode : Byte) (op : AluOp), AluOp.ofOpcode opcode = some op →
    ∃ extension < 8, gotpcrelxGroupExtension opcode = some (BitVec.ofNat 8 extension) ∧ opcode ≠ 0x8B ∧ opcode ≠ 0x85 ∧
      AluOp.ofNumber extension = op := by
  have h : ∀ opcode : Byte, (AluOp.ofOpcode opcode).all (fun op => (range 8).any fun extension =>
      gotpcrelxGroupExtension opcode = some (BitVec.ofNat 8 extension) ∧ opcode ≠ 0x8B ∧ opcode ≠ 0x85 ∧
        AluOp.ofNumber extension = op) = true := by
    decide
  intro opcode op hop
  have hall := h opcode
  rw [hop] at hall
  obtain ⟨extension, hlt, hextension⟩ := any_eq_true.mp hall
  exact ⟨extension, mem_range.mp hlt, of_decide_eq_true hextension⟩

section

variable {l tail field after : List Byte} {opcode modrm : Byte}

/-- Setting the byte behind some others. -/
theorem set_append_length (l tail : List Byte) (x y : Byte) : (l ++ x :: tail).set l.length y = l ++ y :: tail := by
  rw [set_append_right _ _ le_rfl, Nat.sub_self, set_cons_zero]

/-- Reading the byte behind some others. -/
theorem getD_append_length (l tail : List Byte) (x : Byte) : (l ++ x :: tail).getD l.length 0 = x := by
  rw [getD_append_right _ _ _ _ le_rfl, Nat.sub_self, getD_cons_zero]

/-- The field behind an opcode and a ModRM byte is written. -/
theorem store32_field (hfield : field.length = 4) (value : BitVec 32) :
    Bytes.store32 (l ++ opcode :: modrm :: (field ++ after)) (l.length + 2) value =
      l ++ opcode :: modrm :: (Bytes.leBytes 4 value.toNat ++ after) := by
  have hsplit (rest : List Byte) : l ++ opcode :: modrm :: rest = (l ++ [opcode, modrm]) ++ rest := by
    rw [append_assoc]
    rfl
  have hlength : (l ++ [opcode, modrm]).length = l.length + 2 := by
    rw [length_append]
    rfl
  unfold Bytes.store32 Bytes.writeAt
  have hdrop : ((l ++ [opcode, modrm]) ++ (field ++ after)).drop ((l ++ [opcode, modrm]).length + 4) = after := by
    rw [← hfield, ← append_assoc, ← length_append, drop_left]
  rw [Bytes.leBytes_length, hsplit (field ++ after), ← hlength, take_left, hdrop, append_assoc]
  exact (hsplit _).symm

/-- A load becomes an address computation. -/
theorem relax_mov (hmodrm : modrm &&& 0xC7 = 0x05) :
    relocationRelaxGotpcrelx (l ++ 0x8B :: modrm :: tail) (l.length + 2) = some (l ++ 0x8D :: modrm :: tail, false) := by
  have hmodrmAt : (l ++ 0x8B :: modrm :: tail).getD (l.length + 1) 0 = modrm := by
    have := getD_append_length (l ++ [0x8B]) tail modrm
    rwa [length_append, append_assoc] at this
  unfold relocationRelaxGotpcrelx
  rw [if_neg (by omega), Nat.add_sub_cancel, show l.length + 2 - 1 = l.length + 1 from rfl, getD_append_length, hmodrmAt]
  rw [if_neg (not_not.mpr hmodrm), if_pos rfl, set_append_length]

/-- The opcode and the number of the group that an opcode becomes. -/
inductive Folds : Byte → Byte → Byte → Prop
  | test : Folds 0x85 0xF7 0
  | alu {opcode extension : Byte} : opcode ≠ 0x85 → gotpcrelxGroupExtension opcode = some extension →
      Folds opcode 0x81 extension

/-- Another instruction takes an immediate, and the byte before it is taken for its REX prefix. -/
theorem relax_fold {rex opcode' extension : Byte} (hmodrm : modrm &&& 0xC7 = 0x05) (hload : opcode ≠ 0x8B)
    (hfolds : Folds opcode opcode' extension) :
    relocationRelaxGotpcrelx (l ++ rex :: opcode :: modrm :: tail) (l.length + 3) =
      if rex &&& 0xF0 ≠ 0x40 then none
      else some (l ++ directRex rex :: opcode' :: directModrm extension modrm :: tail, true) := by
  have hone (x y : Byte) (rest : List Byte) : l ++ x :: y :: rest = (l ++ [x]) ++ y :: rest := by
    rw [append_assoc]
    rfl
  have htwo (x y z : Byte) (rest : List Byte) : l ++ x :: y :: z :: rest = (l ++ [x, y]) ++ z :: rest := by
    rw [append_assoc]
    rfl
  have hlength1 (x : Byte) : (l ++ [x]).length = l.length + 1 := by
    rw [length_append]
    rfl
  have hlength2 (x y : Byte) : (l ++ [x, y]).length = l.length + 2 := by
    rw [length_append]
    rfl
  -- reading and writing at the three places
  have hget1 (x y : Byte) (rest : List Byte) : (l ++ x :: y :: rest).getD (l.length + 1) 0 = y := by
    rw [hone, ← hlength1 x, getD_append_length]
  have hget2 (x y z : Byte) (rest : List Byte) : (l ++ x :: y :: z :: rest).getD (l.length + 2) 0 = z := by
    rw [htwo, ← hlength2 x y, getD_append_length]
  have hset1 (x y y' : Byte) (rest : List Byte) :
      (l ++ x :: y :: rest).set (l.length + 1) y' = l ++ x :: y' :: rest := by
    rw [hone, ← hlength1 x, set_append_length, ← hone]
  have hset2 (x y z z' : Byte) (rest : List Byte) :
      (l ++ x :: y :: z :: rest).set (l.length + 2) z' = l ++ x :: y :: z' :: rest := by
    rw [htwo, ← hlength2 x y, set_append_length, ← htwo]
  unfold relocationRelaxGotpcrelx
  rw [if_neg (by omega), show l.length + 3 - 2 = l.length + 1 from rfl, show l.length + 3 - 1 = l.length + 2 from rfl,
    Nat.add_sub_cancel, hget1, hget2]
  dsimp only
  have hknown : ((gotpcrelxGroupExtension opcode).isNone && decide (opcode ≠ 0x85)) = false := by
    cases hfolds with
    | test => rfl
    | alu _ hextension => rw [hextension]; rfl
  rw [if_neg (not_not.mpr hmodrm), if_neg hload, hknown, if_neg Bool.false_ne_true, if_neg (by omega),
    getD_append_length, hset1, hset2, set_append_length]
  cases hfolds with
  | test => rfl
  | alu hne hextension =>
    rw [if_neg hne, if_neg hne, hextension]
    rfl

end

end Mettle.Linker

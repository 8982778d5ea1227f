import Mettle.Linker.Relocation

/-!
# When the rewriting of a load is right

The bytes that the relocation leaves are taken apart and decoded, for each way the instruction can be written: with or
without the prefix of the operand size, and with or without REX.
-/

open List Option BitVec

namespace Mettle.Linker

open X86 (Insn Prefixed Prefixes Rex AluOp LoadOpcode decode exec word32)

/-- Nothing is rewritten when there is no byte before the opcode. -/
theorem relax_first {opcode modrm : Byte} {tail : List Byte} (hload : opcode ≠ 0x8B) :
    relocationRelaxGotpcrelx (opcode :: modrm :: tail) 2 = none := by
  unfold relocationRelaxGotpcrelx
  dsimp only
  rw [show (opcode :: modrm :: tail).getD (2 - 2) 0 = opcode from rfl, if_neg (by decide), if_neg hload,
    if_pos (by decide : 2 < 3)]
  split
  · rfl
  · split <;> rfl

/-- A word that fits 32 bits is kept by them. -/
theorem signExtend_setWidth {value : BitVec 64} (hlow : -2 ^ 31 ≤ value.toInt) (hhigh : value.toInt ≤ 2 ^ 31 - 1) :
    (value.setWidth 32).signExtend 64 = value := by
  apply eq_of_toInt_eq
  rw [toInt_signExtend_of_le (by decide), toInt_setWidth]
  rw [Int.bmod_def]
  rw [toInt_eq_toNat_cond] at *
  have := value.isLt
  split at hlow <;> split <;> omega

theorem word32_leBytes (value : BitVec 32) : word32 (Bytes.leBytes 4 value.toNat) = value :=
  Bytes.ofNat_leValue_leBytes

/-! ## The instruction after the rewriting -/

section

variable {pre : List Byte} {p p' : Prefixes} {opcode opcode' extension modrm : Byte} {insn : Insn}
  {disp value : BitVec 32}

/-- Every load but a move has a form with an immediate. -/
theorem folds_of_loadOpcode (h : LoadOpcode p modrm disp opcode insn) (hmov : ∀ w dst disp, insn ≠ .mov w dst disp) :
    opcode ≠ 0x8B ∧ ∃ opcode', ∃ number < 8, Folds opcode opcode' (BitVec.ofNat 8 number) := by
  cases h with
  | mov => exact absurd rfl (hmov _ _ _)
  | test => exact ⟨by decide, 0xF7, 0, by decide, .test⟩
  | alu hop =>
    obtain ⟨number, hlt, hextension, hload, htest, -⟩ := gotpcrelxGroupExtension_spec _ _ hop
    exact ⟨hload, 0x81, number, hlt, .alu htest hextension⟩

/-- What the folded instruction decodes to, and that it does the same. -/
theorem decode_folded (after : List Byte) (h : LoadOpcode p modrm disp opcode insn) (hload : opcode ≠ 0x8B)
    (hfolds : Folds opcode opcode' extension) (hpre : Prefixed pre p') (hwidth : p'.width = p.width)
    (hw : p.width ≠ .w16) (hreg : p'.rm (directModrm extension modrm) = p.reg modrm) {next target : BitVec 64}
    (htarget : value.signExtend 64 = target) :
    ∃ insn', decode (pre ++ opcode' :: directModrm extension modrm :: (Bytes.leBytes 4 value.toNat ++ after)) =
        some (insn', pre.length + 6) ∧
      ∀ (load : BitVec 64 → BitVec 64) (slot : BitVec 32) (s : X86.State), load (next + slot.signExtend 64) = target →
        exec next load s insn' = exec next load s (insn.withDisp slot) := by
  have hw' : p'.width ≠ .w16 := hwidth ▸ hw
  have hfield : (Bytes.leBytes 4 value.toNat).length = 4 := Bytes.leBytes_length _ _
  cases hfolds with
  | test =>
    obtain ⟨hdirect, hzero, -⟩ := directModrm_spec modrm 0 (by decide)
    refine ⟨_, X86.decode_test_imm hpre hw' hfield hdirect hzero, fun load slot s hslot => ?_⟩
    cases h with
    | test =>
      rw [word32_leBytes, hwidth]
      exact (congrArg _ (congrArg (fun r => Insn.test p.width r (.imm value)) hreg)).trans
        (X86.exec_test_imm (hslot.trans htarget.symm))
    | alu hop => cases hop
  | alu htest hextension =>
    cases h with
    | mov => exact absurd rfl hload
    | test => exact absurd rfl htest
    | alu hop =>
      obtain ⟨number, hlt, hnumber, -, -, hop'⟩ := gotpcrelxGroupExtension_spec _ _ hop
      obtain rfl := some.inj (hextension.symm.trans hnumber)
      obtain ⟨hdirect, hgroup, -⟩ := directModrm_spec modrm number hlt
      refine ⟨_, X86.decode_alu_imm hpre hw' hfield hdirect, fun load slot s hslot => ?_⟩
      rw [word32_leBytes, hwidth, hreg, AluOp.ofModrm, hgroup, hop']
      exact X86.exec_alu_imm (hslot.trans htarget.symm)

end

/-- The register of a ModRM byte stays, when its extension moves from REX.R to REX.B. -/
theorem rm_directModrm {p p' : Prefixes} (h : p'.rex.elim false Rex.b = p.rex.elim false Rex.r) {modrm : Byte}
    {number : ℕ} (hlt : number < 8) : p'.rm (directModrm (BitVec.ofNat 8 number) modrm) = p.reg modrm := by
  unfold Prefixes.rm Prefixes.reg Prefixes.register
  rw [h, (directModrm_spec modrm number hlt).2.2]

/-- The opcode of a load is no prefix. -/
theorem isOpcode_of_loadOpcode {p : Prefixes} {opcode modrm : Byte} {disp : BitVec 32} {insn : Insn}
    (h : LoadOpcode p modrm disp opcode insn) : X86.isOpcode opcode = true := by
  have halu : ∀ opcode : Byte, (AluOp.ofOpcode opcode).isSome = true → X86.isOpcode opcode = true := by
    decide
  cases h with
  | mov => decide
  | test => decide
  | alu hop => exact halu _ (by rw [hop]; rfl)

/-! ## The whole relocation -/

namespace GotLoad

variable (g : GotLoad)

/-- A load is prefixes, an opcode, a ModRM byte and the field. -/
theorem shape : ∃ pre p opcode modrm field, Prefixed pre p ∧ g.bytes = pre ++ opcode :: modrm :: field ∧
    field.length = 4 ∧ modrm &&& 0xC7 = 0x05 ∧ LoadOpcode p modrm (word32 field) opcode g.insn ∧
    (X86.takePrefixes g.bytes).1 = p := by
  obtain ⟨pre, p, opcode, modrm, field, rest, hpre, hbytes, hfield, hmodrm, hload, hlength⟩ :=
    X86.decode_load g.decodes g.isLoad
  have hsplit : g.bytes ++ g.after = (pre ++ opcode :: modrm :: field) ++ rest := by
    rw [hbytes, List.append_assoc]
    rfl
  have hlen : g.bytes.length = (pre ++ opcode :: modrm :: field).length := by
    rw [hlength, length_append, length_cons, length_cons, hfield]
  obtain ⟨heq, -⟩ := append_inj hsplit hlen
  refine ⟨pre, p, opcode, modrm, field, hpre, heq, hfield, hmodrm, hload, ?_⟩
  rw [heq, X86.takePrefixes_prefixed hpre (isOpcode_of_loadOpcode hload)]

/-- What a relocation with the addend -4 does to the load. -/
structure Applied (relocation : LinkReloc) (target : RelocationTarget) (address sectionOffset imageBase tlsSize : BitVec 64)
    (data : List Byte) : Prop where
  kind : relocation.kind = .gotpcrelx32
  offset : (sectionOffset + relocation.offset).toNat = g.patchOffset
  addend : relocation.addendAt g.data g.patchOffset 4 = -4
  result : linkApplyRelocation g.data address sectionOffset imageBase tlsSize relocation target = some data

/-- The address behind the instruction. -/
def next (relocation : LinkReloc) (address sectionOffset : BitVec 64) : BitVec 64 :=
  address + (sectionOffset + relocation.offset) + 4

variable {g} {relocation : LinkReloc} {target : RelocationTarget}
  {address sectionOffset imageBase tlsSize : BitVec 64} {data : List Byte}

/-- What the relaxation did when the relocation was applied. -/
theorem Applied.relaxed (h : g.Applied relocation target address sectionOffset imageBase tlsSize data) :
    ∃ data₁ becomesAbsolute, relocationRelaxGotpcrelx g.data g.patchOffset = some (data₁, becomesAbsolute) ∧
      if becomesAbsolute then
        0 ≤ target.virtualAddress.toInt ∧ target.virtualAddress.toInt ≤ 2 ^ 31 - 1 ∧
          data = Bytes.store32 data₁ g.patchOffset (target.virtualAddress.setWidth 32)
      else
        ∃ relative : BitVec 64, next relocation address sectionOffset + relative =
            (if relocation.addendIsExplicit then target.virtualAddress else target.virtualAddress - 4) ∧
          -2 ^ 31 ≤ relative.toInt ∧ relative.toInt ≤ 2 ^ 31 - 1 ∧
          data = Bytes.store32 data₁ g.patchOffset (relative.setWidth 32) := by
  obtain ⟨hkind, hoffset, haddend, hresult⟩ := h
  unfold linkApplyRelocation at hresult
  rw [hkind] at hresult
  dsimp only [LinkRelocKind.width, bind_some] at hresult
  obtain ⟨-, hresult⟩ := ite_none_left_eq_some.mp hresult
  rw [hoffset, haddend] at hresult
  obtain ⟨⟨data₁, becomesAbsolute⟩, hrelax, hresult⟩ := bind_eq_some_iff.mp hresult
  refine ⟨data₁, becomesAbsolute, hrelax, ?_⟩
  -- the load became an immediate, or an address computation that is patched like any relative field
  cases becomesAbsolute with
  | true =>
    rw [if_pos rfl] at hresult ⊢
    rw [show target.virtualAddress + -4 + 4 = target.virtualAddress by
      rw [BitVec.add_assoc]; exact BitVec.add_zero _] at hresult
    obtain ⟨hrange, hresult⟩ := ite_none_left_eq_some.mp hresult
    obtain ⟨hlow, hhigh⟩ := not_or.mp hrange
    exact ⟨not_lt.mp hlow, not_lt.mp hhigh, (some.inj hresult).symm⟩
  | false =>
    rw [if_neg Bool.false_ne_true] at hresult ⊢
    obtain ⟨hrange, hresult⟩ := ite_none_left_eq_some.mp hresult
    obtain ⟨hlow, hhigh⟩ := not_or.mp hrange
    refine ⟨_, ?_, not_lt.mp hlow, not_lt.mp hhigh, (some.inj hresult).symm⟩
    unfold next
    generalize sectionOffset + relocation.offset = patch
    cases relocation.addendIsExplicit with
    | true =>
      show address + patch + 4 + (target.virtualAddress + -4 - (address + patch) - 0) = target.virtualAddress
      ring
    | false =>
      show address + patch + 4 + (target.virtualAddress + -4 - (address + patch) - 4) = target.virtualAddress - 4
      ring

/-- Where the field lies behind the prefixes. -/
theorem patchOffset_eq {pre field : List Byte} {opcode modrm : Byte} (hbytes : g.bytes = pre ++ opcode :: modrm :: field)
    (hfield : field.length = 4) : g.patchOffset = (g.before ++ pre).length + 2 := by
  unfold patchOffset
  rw [hbytes, length_append, length_append, length_cons, length_cons, hfield]
  omega

/-- The bytes around a load. -/
theorem data_eq {pre field : List Byte} {opcode modrm : Byte} (hbytes : g.bytes = pre ++ opcode :: modrm :: field) :
    g.data = (g.before ++ pre) ++ opcode :: modrm :: (field ++ g.after) := by
  unfold data
  rw [hbytes]
  simp only [List.append_assoc, List.cons_append]

/-- Rewritten bytes of the same length in the place of the instruction are its only rewriting. -/
theorem preserved_iff_of_eq {bytes : List Byte} (hdata : data = g.before ++ (bytes ++ g.after))
    (hlength : bytes.length = g.bytes.length) (next target : BitVec 64) : g.Preserved next target data ↔
      ∃ insn, decode (bytes ++ g.after) = some (insn, g.bytes.length) ∧
        ∀ (load : BitVec 64 → BitVec 64) (disp : BitVec 32) (s : X86.State),
          load (next + disp.signExtend 64) = target → exec next load s insn = exec next load s (g.insn.withDisp disp) := by
  constructor
  · rintro ⟨bytes', insn, hdata', hlength', hdecode, hexec⟩
    have hsame := append_cancel_left (hdata.symm.trans hdata')
    obtain ⟨rfl, -⟩ := append_inj hsame (hlength.trans hlength'.symm)
    exact ⟨insn, hdecode, hexec⟩
  · rintro ⟨insn, hdecode, hexec⟩
    exact ⟨bytes, insn, hdata, hlength, hdecode, hexec⟩

/-- An address is not four less, at any width. -/
theorem setWidth_sub_four_ne {target : BitVec 64} (w : X86.Width) :
    (target - 4).setWidth w.bits ≠ target.setWidth w.bits := by
  intro h
  have hle : w.bits ≤ 64 := by cases w <;> decide
  have hzero : (4 : BitVec 64).setWidth w.bits = 0 := by
    have hsum : target.setWidth w.bits = (target - 4).setWidth w.bits + (4 : BitVec 64).setWidth w.bits := by
      rw [← setWidth_add _ _ hle, BitVec.sub_add_cancel]
    rw [h] at hsum
    exact left_eq_add.mp hsum
  cases w <;> exact absurd hzero (by decide)

section

variable (h : g.Applied relocation target address sectionOffset imageBase tlsSize data)
include h

/-- A load of an address. -/
theorem Applied.mov_iff {pre field : List Byte} {p : Prefixes} {modrm : Byte} (hpre : Prefixed pre p)
    (hbytes : g.bytes = pre ++ 0x8B :: modrm :: field) (hfield : field.length = 4) (hmodrm : modrm &&& 0xC7 = 0x05)
    {disp : BitVec 32} (hinsn : g.insn = .mov p.width (p.reg modrm) disp) :
    g.Preserved (next relocation address sectionOffset) target.virtualAddress data ↔
      relocation.addendIsExplicit = true := by
  obtain ⟨data₁, becomesAbsolute, hrelax, hresult⟩ := h.relaxed
  rw [data_eq hbytes, patchOffset_eq hbytes hfield, relax_mov hmodrm] at hrelax
  cases hrelax
  rw [if_neg Bool.false_ne_true] at hresult
  obtain ⟨relative, hrelative, hlow, hhigh, hdata⟩ := hresult
  rw [patchOffset_eq hbytes hfield, store32_field hfield] at hdata
  generalize hvalue : relative.setWidth 32 = value at hdata
  have hextend : value.signExtend 64 = relative := hvalue ▸ signExtend_setWidth hlow hhigh
  have hlength : (pre ++ 0x8D :: modrm :: Bytes.leBytes 4 value.toNat).length = g.bytes.length := by
    rw [hbytes, length_append, length_append, length_cons, length_cons, length_cons,
      length_cons, hfield, Bytes.leBytes_length]
  have hsix : g.bytes.length = pre.length + 6 := by
    rw [hbytes, length_append, length_cons, length_cons, hfield]
  have hdecode : decode ((pre ++ 0x8D :: modrm :: Bytes.leBytes 4 value.toNat) ++ g.after) =
      some (.lea p.width (p.reg modrm) value, g.bytes.length) := by
    rw [List.append_assoc, List.cons_append, List.cons_append,
      X86.decode_lea hpre (Bytes.leBytes_length _ _) hmodrm, word32_leBytes, hsix]
  rw [preserved_iff_of_eq (hdata.trans (by simp only [List.append_assoc, List.cons_append])) hlength]
  cases hexplicit : relocation.addendIsExplicit with
  | true =>
    rw [hexplicit, if_pos rfl] at hrelative
    refine ⟨fun _ => rfl, fun _ => ⟨_, hdecode, fun load slot s hslot => ?_⟩⟩
    rw [hinsn]
    refine X86.exec_lea (hslot.trans ?_)
    rw [hextend, hrelative]
  | false =>
    rw [hexplicit, if_neg Bool.false_ne_true] at hrelative
    refine ⟨fun ⟨insn, hdecode', hexec⟩ => ?_, nofun⟩
    -- the address computed is four less than the one that is loaded
    obtain ⟨rfl, -⟩ := Prod.mk.inj (some.inj (hdecode.symm.trans hdecode'))
    have hsame := hexec (fun _ => target.virtualAddress) 0 ⟨fun _ => 0, {}⟩ rfl
    rw [hinsn] at hsame
    have hlea := X86.lea_injective hsame
    rw [hextend, hrelative] at hlea
    exact absurd hlea (setWidth_sub_four_ne _)

/-- What is left of the data when an instruction with the byte `rex` before its opcode takes an immediate. -/
theorem Applied.folded {l field : List Byte} {rex opcode opcode' extension modrm : Byte}
    (hmodrm : modrm &&& 0xC7 = 0x05) (hload : opcode ≠ 0x8B) (hfolds : Folds opcode opcode' extension)
    (hfield : field.length = 4) (hdata : g.data = l ++ rex :: opcode :: modrm :: (field ++ g.after))
    (hpatch : g.patchOffset = l.length + 3) :
    rex &&& 0xF0 = 0x40 ∧ ∃ value : BitVec 32, value.signExtend 64 = target.virtualAddress ∧
      data = l ++ directRex rex :: opcode' :: directModrm extension modrm ::
        (Bytes.leBytes 4 value.toNat ++ g.after) := by
  obtain ⟨data₁, becomesAbsolute, hrelax, hresult⟩ := h.relaxed
  rw [hdata, hpatch, relax_fold hmodrm hload hfolds] at hrelax
  obtain ⟨hrex, hrelax⟩ := ite_none_left_eq_some.mp hrelax
  cases hrelax
  rw [if_pos rfl] at hresult
  obtain ⟨hlow, hhigh, hdata'⟩ := hresult
  refine ⟨not_not.mp hrex, target.virtualAddress.setWidth 32, signExtend_setWidth (le_trans (by decide) hlow) hhigh, ?_⟩
  have hstore : Bytes.store32 ((l ++ [directRex rex]) ++ opcode' :: directModrm extension modrm :: (field ++ g.after))
      ((l ++ [directRex rex]).length + 2) (target.virtualAddress.setWidth 32) = _ := store32_field hfield _
  rw [length_append, List.append_assoc, List.append_assoc] at hstore
  rw [hdata', hpatch]
  exact hstore

/-- An instruction that takes an immediate, with its own REX prefix at the end of `pre`. -/
theorem Applied.rex_iff (pre₀ : List Byte) {field : List Byte} {rexByte opcode modrm : Byte} {rex : Rex}
    {opsize : Bool} {disp : BitVec 32}
    (hpre : ∀ byte rex, Rex.ofByte byte = some rex → Prefixed (pre₀ ++ [byte]) { opsize, rex := some rex })
    (hrex : Rex.ofByte rexByte = some rex) (hbytes : g.bytes = (pre₀ ++ [rexByte]) ++ opcode :: modrm :: field)
    (hfield : field.length = 4) (hmodrm : modrm &&& 0xC7 = 0x05)
    (hopcode : LoadOpcode { opsize, rex := some rex } modrm disp opcode g.insn)
    (hmov : ∀ w dst disp, g.insn ≠ .mov w dst disp) :
    g.Preserved (next relocation address sectionOffset) target.virtualAddress data ↔
      rex.w = true ∨ opsize = false := by
  obtain ⟨hload, opcode', number, hlt, hfolds⟩ := folds_of_loadOpcode hopcode hmov
  generalize hextension : BitVec.ofNat 8 number = extension at hfolds
  -- the bytes before the load are read as prefixes, then REX, opcode and ModRM stand where the reader looks
  have hdata : g.data = (g.before ++ pre₀) ++ rexByte :: opcode :: modrm :: (field ++ g.after) := by
    rw [data_eq hbytes]
    simp only [List.append_assoc, List.cons_append, nil_append]
  have hpatch : g.patchOffset = (g.before ++ pre₀).length + 3 := by
    rw [patchOffset_eq hbytes hfield]
    simp only [length_append, length_singleton]
    omega
  obtain ⟨-, value, hvalue, hdata'⟩ := h.folded hmodrm hload hfolds hfield hdata hpatch
  have hrex' := directRex_spec rexByte rex hrex
  have hpre' := hpre _ _ hrex'
  have hlength : ((pre₀ ++ [directRex rexByte]) ++ opcode' :: directModrm extension modrm ::
      Bytes.leBytes 4 value.toNat).length = g.bytes.length := by
    rw [hbytes]
    simp only [length_append, length_cons, Bytes.leBytes_length, hfield]
  have hsix : g.bytes.length = (pre₀ ++ [directRex rexByte]).length + 6 := by
    rw [← hlength, length_append, length_cons, length_cons, Bytes.leBytes_length]
  rw [preserved_iff_of_eq (hdata'.trans (by
    simp only [List.append_assoc, List.cons_append, nil_append])) hlength]
  rw [List.append_assoc (pre₀ ++ [directRex rexByte]), List.cons_append, List.cons_append]
  by_cases hwide : rex.w = true ∨ opsize = false
  · -- the immediate takes as many bytes as the displacement
    have hw : ({ opsize, rex := some rex } : Prefixes).width ≠ .w16 := by
      unfold Prefixes.width
      rcases hwide with hw | hw
      · rw [elim_some, hw, if_pos rfl]
        decide
      · rw [hw, if_neg (show ¬ false = true from Bool.false_ne_true)]
        split <;> decide
    obtain ⟨insn', hdecode, hexec⟩ := decode_folded g.after hopcode hload hfolds hpre' rfl hw (hextension ▸ rm_directModrm rfl hlt) hvalue
    refine iff_of_true ⟨insn', ?_, hexec⟩ hwide
    rw [hdecode, hsix]
  -- a 16-bit operand without REX.W: its immediate is two bytes, where the field has four
  · refine iff_of_false (fun ⟨insn', hdecode, _⟩ => ?_) hwide
    obtain ⟨hw, hopsize⟩ := not_or.mp hwide
    have hdirect : directModrm extension modrm &&& 0xC0 = 0xC0 := hextension ▸ (directModrm_spec modrm number hlt).1
    have hopcode' : opcode' = 0x81 ∨ opcode' = 0xF7 := by
      cases hfolds with
      | test => exact Or.inr rfl
      | alu => exact Or.inl rfl
    have himm := X86.decode_imm hpre' hopcode' hdirect hdecode
    rw [hsix] at himm
    have hnarrow : (⟨opsize, some { rex with r := false, b := rex.r }⟩ : Prefixes).width = .w16 := by
      unfold Prefixes.width
      rw [elim_some, if_neg hw, if_pos (Bool.not_eq_false _ ▸ hopsize)]
    rw [hnarrow] at himm
    simp only [X86.Width.immediateLength] at himm
    omega

/-- An instruction without prefixes, whose byte before is the last of another instruction. -/
theorem Applied.plain_iff {field : List Byte} {opcode modrm : Byte} {disp : BitVec 32}
    (hbytes : g.bytes = opcode :: modrm :: field) (hfield : field.length = 4) (hmodrm : modrm &&& 0xC7 = 0x05)
    (hopcode : LoadOpcode {} modrm disp opcode g.insn) (hmov : ∀ w dst disp, g.insn ≠ .mov w dst disp) :
    g.Preserved (next relocation address sectionOffset) target.virtualAddress data ↔
      ∀ byte, g.before.getLast? = some byte → byte &&& 0x05 = 0 := by
  obtain ⟨hload, opcode', number, hlt, hfolds⟩ := folds_of_loadOpcode hopcode hmov
  have hdata₀ : g.data = (g.before ++ []) ++ opcode :: modrm :: (field ++ g.after) := data_eq (show g.bytes = [] ++ _ from hbytes)
  have hpatch₀ : g.patchOffset = (g.before ++ []).length + 2 :=
    patchOffset_eq (show g.bytes = [] ++ _ from hbytes) hfield
  rw [append_nil] at hdata₀ hpatch₀
  -- there is a byte before, or nothing would have been rewritten
  rcases eq_nil_or_concat g.before with hnil | ⟨l, byte, hbefore⟩
  · exfalso
    obtain ⟨data₁, becomesAbsolute, hrelax, -⟩ := h.relaxed
    rw [hpatch₀, hdata₀, hnil, nil_append, length_nil, Nat.zero_add, relax_first hload] at hrelax
    cases hrelax
  · rw [concat_eq_append] at hbefore
    have hdata : g.data = l ++ byte :: opcode :: modrm :: (field ++ g.after) := by
      rw [hdata₀, hbefore]
      simp only [List.append_assoc, List.cons_append, nil_append]
    have hpatch : g.patchOffset = l.length + 3 := by
      rw [hpatch₀, hbefore, length_append]
      rfl
    obtain ⟨-, value, hvalue, hdata'⟩ := h.folded hmodrm hload hfolds hfield hdata hpatch
    have hlast : (∀ byte, g.before.getLast? = some byte → byte &&& 0x05 = 0) ↔ directRex byte = byte := by
      rw [directRex_eq_iff, hbefore, getLast?_concat]
      exact ⟨fun hall => hall byte rfl, fun hzero byte' heq => some.inj heq ▸ hzero⟩
    have hlength : (opcode' :: directModrm (BitVec.ofNat 8 number) modrm :: Bytes.leBytes 4 value.toNat).length =
        g.bytes.length := by
      rw [hbytes]
      simp only [length_cons, Bytes.leBytes_length, hfield]
    rw [hlast]
    by_cases hsame : directRex byte = byte
    · rw [hsame] at hdata'
      refine iff_of_true ((preserved_iff_of_eq (hdata'.trans ?_) hlength _ _).mpr ?_) hsame
      · rw [hbefore]
        simp only [List.append_assoc, List.cons_append, nil_append]
      · have hsix : g.bytes.length = 6 := by
          rw [hbytes, length_cons, length_cons, hfield]
        obtain ⟨insn', hdecode, hexec⟩ := decode_folded g.after hopcode hload hfolds
          Prefixed.none rfl (by decide) (rm_directModrm rfl hlt) hvalue
        exact ⟨insn', by rw [hsix]; exact hdecode, hexec⟩
    · refine iff_of_false (fun ⟨bytes, insn, hdata'', _⟩ => hsame ?_) hsame
      rw [hdata', hbefore, List.append_assoc, singleton_append] at hdata''
      exact (cons.inj (append_cancel_left hdata'')).1

end

/-- The rewriting of a load is right exactly when it is relaxable in this way. -/
theorem preserved_iff (g : GotLoad) (relocation : LinkReloc) (target : RelocationTarget)
    (address sectionOffset imageBase tlsSize : BitVec 64) (data : List Byte)
    (h : g.Applied relocation target address sectionOffset imageBase tlsSize data) :
    g.Preserved (next relocation address sectionOffset) target.virtualAddress data ↔ g.Relaxable relocation := by
  obtain ⟨pre, p, opcode, modrm, field, hpre, hbytes, hfield, hmodrm, hopcode, htaken⟩ := g.shape
  unfold Relaxable
  cases hmov : g.insn.isMov with
  | true =>
    rw [if_pos rfl]
    cases hinsn : g.insn with
    | mov w dst disp =>
      rw [hinsn] at hopcode
      cases hopcode
      exact h.mov_iff hpre hbytes hfield hmodrm hinsn
    | _ =>
      rw [hinsn] at hmov
      cases hmov
  | false =>
    have hmov' : ∀ w dst disp, g.insn ≠ .mov w dst disp := by
      intro w dst disp heq
      rw [heq] at hmov
      cases hmov
    rw [if_neg Bool.false_ne_true, htaken]
    cases hpre with
    | none => exact h.plain_iff hbytes hfield hmodrm hopcode hmov'
    | rex hrex =>
      exact h.rex_iff [] (fun _ _ hbyte => .rex hbyte) hrex hbytes hfield hmodrm hopcode hmov'
    | opsize =>
      -- the prefix of the operand size is no REX prefix, and nothing is rewritten
      exfalso
      obtain ⟨hload, opcode', number, hlt, hfolds⟩ := folds_of_loadOpcode hopcode hmov'
      have hdata : g.data = g.before ++ 0x66 :: opcode :: modrm :: (field ++ g.after) := by
        rw [data_eq hbytes, List.append_assoc, List.singleton_append]
      have hpatch : g.patchOffset = g.before.length + 3 := by
        rw [patchOffset_eq hbytes hfield, List.length_append, List.length_singleton]
      exact absurd (h.folded hmodrm hload hfolds hfield hdata hpatch).1 (by decide)
    | both hrex =>
      exact h.rex_iff [0x66] (fun _ _ hbyte => .both hbyte) hrex hbytes hfield hmodrm hopcode hmov'

/-- `mov rax, [rip]`. -/
def movLoad : GotLoad where
  before := [0x90]
  bytes := [0x48, 0x8B, 0x05, 0, 0, 0, 0]
  after := [0xC3]
  insn := .mov .w64 (Prefixes.register false 0) 0
  decodes := by decide
  isLoad := rfl

theorem preserved_iff_movLoad :
    movLoad.Preserved (next ⟨4, 0, .gotpcrelx32, -4, true⟩ 0x400000 0) 0x500000
        [0x90, 0x48, 0x8D, 0x05, 0xF8, 0xFF, 0x0F, 0x00, 0xC3] ↔
      movLoad.Relaxable ⟨4, 0, .gotpcrelx32, -4, true⟩ :=
  preserved_iff movLoad ⟨4, 0, .gotpcrelx32, -4, true⟩ ⟨"x", 2, 0, 0x500000⟩ 0x400000 0 0 0
    [0x90, 0x48, 0x8D, 0x05, 0xF8, 0xFF, 0x0F, 0x00, 0xC3]
    ⟨rfl, by decide, by decide, by decide⟩

/-- `add eax, [rip]` after `add eax, 0x45`. -/
def addLoad : GotLoad where
  before := [0x83, 0xC0, 0x45]
  bytes := [0x03, 0x05, 0, 0, 0, 0]
  after := []
  insn := .alu .add .w32 (Prefixes.register false 0) (.ripMem 0)
  decodes := by decide
  isLoad := rfl

/-- The instruction before becomes another one. -/
theorem addLoad_not_preserved :
    addLoad.Applied ⟨5, 0, .gotpcrelx32, -4, true⟩ ⟨"x", 2, 0, 0x500000⟩ 0x400000 0 0 0
        [0x83, 0xC0, 0x41, 0x81, 0xC0, 0x00, 0x00, 0x50, 0x00] ∧
      ¬ addLoad.Preserved (next ⟨5, 0, .gotpcrelx32, -4, true⟩ 0x400000 0) 0x500000
        [0x83, 0xC0, 0x41, 0x81, 0xC0, 0x00, 0x00, 0x50, 0x00] := by
  refine ⟨⟨rfl, by decide, by decide, by decide⟩, ?_⟩
  rintro ⟨bytes, insn, hdata, -⟩
  have hthird : (0x41 : Byte) = 0x45 := congrArg (fun l : List Byte => l.getD 2 0) hdata
  exact absurd hthird (by decide)

end GotLoad

end Mettle.Linker

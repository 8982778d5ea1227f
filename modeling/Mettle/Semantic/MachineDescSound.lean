import Mettle.Semantic.MachineDesc

/-!
# Assembling and decoding a described machine

No two instructions of a description start with the same bytes, so the bytes of assembled lines decode to the
lines' instructions. The other way round, a decoder looks only at the bytes before the first slot: what it decodes
assembles to the bytes that it read exactly when the rest of them fits the encoding too.
-/

open List
open Option hiding min_eq_left min_eq_right
open BitVec hiding not_not not_or

namespace Mettle.Semantic.Machine

variable {desc : MachineDesc} {insn other : MachineInsn} {insns : List MachineInsn} {operands : Fin operandCount → ℤ}
  {cells : List Cell} {out bytes rest : List (BitVec 8)} {at_ : ℕ}

/-! ## What a description that was read is -/

/-- What is checked of one instruction. -/
structure MachineInsn.Ok (insn : MachineInsn) : Prop where
  name_ne : insn.name ≠ []
  name_length : insn.name.length ≤ 63
  operands_nonneg : 0 ≤ insn.operands
  operands_le : insn.operands ≤ operandCount
  prefix_pos : 0 < insn.prefixLength
  seen_iff : ∀ which : Fin operandCount, insn.seen which = true ↔ ((which : ℕ) : ℤ) < insn.operands

/-- What is checked of a description: its instructions, and that a decoder can tell any two of them apart. -/
structure MachineDesc.Ok (desc : MachineDesc) : Prop where
  insns : ∀ insn ∈ desc.insns, insn.Ok
  apart : desc.insns.Pairwise fun other insn => clashes other insn = false

/-- The slots that an accepted instruction has seen are those below its operand count. -/
theorem seen_iff_of_checkSlots (h : checkSlots insn = true) (hlow : 0 ≤ insn.operands)
    (which : Fin operandCount) :
    insn.seen which = true ↔ ((which : ℕ) : ℤ) < insn.operands := by
  obtain ⟨hused, hall⟩ := Bool.and_eq_true_iff.mp h
  rw [decide_eq_true_eq] at hused
  have hlt : ∀ k : Fin operandCount, ((k : ℕ) : ℤ) < insn.operands → insn.seen k = true := by
    intro k hk
    have := List.all_eq_true.mp hall k (mem_finRange k)
    rw [Bool.or_eq_true, decide_eq_true_eq] at this
    exact this.resolve_left (not_le.mpr hk)
  -- there are as many slots below `operands` as there are slots seen
  have hcount : ((finRange operandCount).filter insn.seen).length =
      (insn.seen 0).toNat + (insn.seen 1).toNat + (insn.seen 2).toNat := by
    rw [show finRange operandCount = [0, 1, 2] from rfl]
    cases h0 : insn.seen 0 <;> cases h1 : insn.seen 1 <;> cases h2 : insn.seen 2 <;>
      simp [h0, h1, h2]
  rw [hcount] at hused
  refine ⟨fun hseen => ?_, hlt which⟩
  have h0 : 0 < insn.operands → insn.seen 0 = true := hlt 0
  have h1 : 1 < insn.operands → insn.seen 1 = true := hlt 1
  have hcases : which = 0 ∨ which = 1 ∨ which = 2 := by
    have hthree : (which : ℕ) < 3 := which.isLt
    simp only [Fin.ext_iff]
    show (which : ℕ) = 0 ∨ (which : ℕ) = 1 ∨ (which : ℕ) = 2
    omega
  rcases hcases with rfl | rfl | rfl
  · show (0 : ℤ) < insn.operands
    rw [hseen] at hused
    simp only [Bool.toNat_true, Nat.cast_add, Nat.cast_one] at hused
    omega
  · show (1 : ℤ) < insn.operands
    by_contra hle
    cases hs0 : insn.seen 0
    · rw [hs0, hseen] at hused
      simp only [Bool.toNat_true, Bool.toNat_false, Nat.cast_add, Nat.cast_one, Nat.cast_zero] at hused
      rw [h0 (by omega)] at hs0
      cases hs0
    · rw [hs0, hseen] at hused
      simp only [Bool.toNat_true, Nat.cast_add, Nat.cast_one] at hused
      omega
  · show (2 : ℤ) < insn.operands
    by_contra hle
    rw [hseen] at hused
    simp only [Bool.toNat_true, Nat.cast_add, Nat.cast_one] at hused
    have hs0 : insn.seen 0 = true := h0 (by omega)
    rw [hs0] at hused
    simp only [Bool.toNat_true, Nat.cast_one] at hused
    have hs1 : insn.seen 1 = true := h1 (by omega)
    rw [hs1] at hused
    simp only [Bool.toNat_true, Nat.cast_one] at hused
    omega

variable {text line stop : Text} {state state' : MachineInsn × Option Text} {program : List Declaration}
    {which : Fin operandCount} {byte : BitVec 8} {lines : List (Text × ℕ)} {outs : List (List (BitVec 8))}
    {consumed capacity : ℕ}

/-- A field that is copied fits with its end. -/
theorem copyField_length {value : Literal} (h : copyField value = some text) : text.length ≤ 63 := by
  unfold copyField at h
  split at h
  · split at h
    · cases h
    · rw [← some.inj h]
      omega
  · cases h

/-- The name of an instruction has at most 63 characters, whatever fields are read. -/
theorem readField_name {field : Option String × Literal} (h : readField state field = some state')
    (hname : state.1.name.length ≤ 63) : state'.1.name.length ≤ 63 := by
  unfold readField at h
  split at h
  · obtain ⟨name, hcopy, rfl⟩ := map_eq_some_iff.mp h
    exact copyField_length hcopy
  all_goals first
    | (obtain ⟨value, -, rfl⟩ := map_eq_some_iff.mp h; exact hname)
    | (cases h; done)
    | (rw [← some.inj h]; exact hname)

/-- The names that are read fit. -/
theorem readFields_name {fields : List (Option String × Literal)} (h : fields.foldlM readField state = some state')
    (hname : state.1.name.length ≤ 63) : state'.1.name.length ≤ 63 := by
  induction fields generalizing state with
  | nil =>
    cases h
    exact hname
  | cons field fields ih =>
    obtain ⟨state₁, hstep, hrest⟩ := bind_eq_some_iff.mp h
    exact ih hrest (readField_name hstep hname)

/-- A row that is read is a well-formed instruction. -/
theorem readRow_ok {row : Row} (h : readRow row = some insn) : insn.Ok := by
  unfold readRow at h
  split at h
  · cases h
  · obtain ⟨⟨insn₀, encoding⟩, hfields, h⟩ := bind_eq_some_iff.mp h
    obtain ⟨text, rfl, h⟩ := bind_eq_some_iff.mp h
    obtain ⟨hcond, h⟩ := ite_none_left_eq_some.mp h
    obtain ⟨hname, hcond⟩ := not_or.mp hcond
    obtain ⟨-, hcond⟩ := not_or.mp hcond
    obtain ⟨hlow, hhigh⟩ := not_or.mp hcond
    obtain ⟨insn₁, hencoding, h⟩ := bind_eq_some_iff.mp h
    obtain ⟨hchecks, h⟩ := ite_none_right_eq_some.mp h
    cases h
    obtain ⟨cells, -, hencoding⟩ := bind_eq_some_iff.mp hencoding
    obtain ⟨hbegins, hencoding⟩ := ite_none_left_eq_some.mp hencoding
    cases hencoding
    obtain ⟨hchecks, -⟩ := Bool.and_eq_true_iff.mp hchecks
    obtain ⟨hslots, -⟩ := Bool.and_eq_true_iff.mp hchecks
    exact ⟨hname, readFields_name hfields (Nat.zero_le _), not_lt.mp hlow, not_lt.mp hhigh,
      Nat.pos_of_ne_zero (not_or.mp hbegins).2, seen_iff_of_checkSlots hslots (not_lt.mp hlow)⟩

/-- What the loop over the rows keeps. -/
theorem readRows_ok {rows : List Row} {insns' : List MachineInsn} (hok : ∀ insn ∈ insns, insn.Ok)
    (hapart : insns.Pairwise fun other insn => clashes other insn = false)
    (h : readRows program insns rows = some insns') :
    (∀ insn ∈ insns', insn.Ok) ∧ insns'.Pairwise fun other insn => clashes other insn = false := by
  induction rows generalizing insns with
  | nil =>
    cases h
    exact ⟨hok, hapart⟩
  | cons row rows ih =>
    obtain ⟨insn, hrow, h⟩ := bind_eq_some_iff.mp h
    split at h
    · rename_i hcond
      obtain ⟨-, hclash⟩ := Bool.and_eq_true_iff.mp hcond
      rw [Bool.not_eq_true', List.any_eq_false] at hclash
      refine ih (fun other hother => ?_) ?_ h
      · rcases mem_append.mp hother with hother | hother
        · exact hok other hother
        · rw [mem_singleton.mp hother]
          exact readRow_ok hrow
      · refine pairwise_append.mpr ⟨hapart, pairwise_singleton _ _, fun other hother insn' hinsn' => ?_⟩
        rw [mem_singleton.mp hinsn']
        exact Bool.not_eq_true _ ▸ hclash other hother
    · cases h

/-- A description that is read is well formed: no two instructions clash. -/
theorem machineDescRead_ok (h : machineDescRead program = some desc) : desc.Ok := by
  unfold machineDescRead at h
  split at h
  · split at h
    · cases h
    · obtain ⟨insns, hrows, rfl⟩ := map_eq_some_iff.mp h
      obtain ⟨hok, hapart⟩ := readRows_ok (fun _ hmem => absurd hmem not_mem_nil) Pairwise.nil hrows
      exact ⟨hok, hapart⟩
  · cases h

/-! ## One instruction -/

/-- The bytes are those of the cells, with these operands. -/
def Encodes (operands : Fin operandCount → ℤ) (cells : List Cell) (out : List (BitVec 8)) : Prop :=
  List.Forall₂ (fun cell byte => cell.encode operands = some byte) cells out

/-- Encoding the cells one by one. -/
theorem mapM_encode : cells.mapM (Cell.encode operands) = some out ↔ Encodes operands cells out := by
  unfold Encodes
  induction cells generalizing out with
  | nil =>
    rw [mapM_nil, forall₂_nil_left_iff]
    exact ⟨fun h => (some.inj h).symm, fun h => by rw [h]; rfl⟩
  | cons cell cells ih =>
    rw [mapM_cons, forall₂_cons_left_iff]
    simp only [bind_eq_bind, bind_eq_some_iff, Option.pure_def, some.injEq]
    constructor
    · rintro ⟨byte, hbyte, out, hout, rfl⟩
      exact ⟨byte, out, hbyte, ih.mp hout, rfl⟩
    · rintro ⟨byte, out, hbyte, hout, rfl⟩
      exact ⟨byte, hbyte, out, ih.mpr hout, rfl⟩

/-- A slot is encoded as the operand, which fits a byte. -/
theorem encode_slot (h : (Cell.slot which).encode operands = some byte) : (byte.toNat : ℤ) = operands which := by
  obtain ⟨hrange, h⟩ := ite_none_left_eq_some.mp h
  rw [← some.inj h, toNat_ofInt]
  omega

/-- A fixed cell is encoded as its byte. -/
theorem encode_fixed {byte' : BitVec 8} (h : (Cell.fixed byte).encode operands = some byte') : byte' = byte :=
  (some.inj h).symm

/-- The bytes before the first slot. -/
theorem Encodes.take_prefix (h : Encodes operands cells out) (rest : List (BitVec 8)) :
    (out ++ rest).take (cells.takeWhile Cell.isFixed).length =
      (cells.map fun | .fixed byte => byte | .slot _ => 0).take (cells.takeWhile Cell.isFixed).length := by
  induction h with
  | nil => rfl
  | @cons cell byte cells out hbyte _ ih =>
    cases cell with
    | slot which => rfl
    | fixed byte' =>
      rw [encode_fixed hbyte]
      exact congrArg (byte' :: ·) ih

/-- The slots of the bytes give the operands back. -/
theorem Encodes.readSlots (h : Encodes operands cells out) (start : Fin operandCount → ℤ) :
    readSlots start cells (out ++ rest) = fun which => if Cell.slot which ∈ cells then operands which else start which := by
  unfold Encodes at h
  induction h generalizing start with
  | nil =>
    funext which
    simp [Machine.readSlots]
  | @cons cell byte cells out hbyte _ ih =>
    funext which
    cases cell with
    | fixed byte' =>
      show Machine.readSlots start cells (out ++ rest) which = _
      rw [ih]
      simp
    | slot which' =>
      show Machine.readSlots (Function.update start which' (byte.toNat : ℤ)) cells (out ++ rest) which = _
      rw [ih, encode_slot hbyte]
      by_cases hwhich : which = which'
      · subst hwhich
        simp
      · simp [hwhich]

theorem Encodes.length_eq (h : Encodes operands cells out) : out.length = cells.length :=
  (Forall₂.length_eq h).symm

/-! ## Decoding what was assembled -/

/-- Two instructions do not clash when neither their names nor their prefixes meet. -/
theorem clashes_eq_false_iff : clashes other insn = false ↔ other.name ≠ insn.name ∧
    other.bytes.take (min other.prefixLength insn.prefixLength) ≠
      insn.bytes.take (min other.prefixLength insn.prefixLength) := by
  unfold clashes
  rw [Bool.or_eq_false_iff, decide_eq_false_iff_not, decide_eq_false_iff_not]

theorem clashes_symm (h : clashes other insn = false) : clashes insn other = false := by
  rw [clashes_eq_false_iff] at *
  rw [min_comm]
  exact ⟨h.1.symm, h.2.symm⟩

/-- No two instructions of a well-formed description clash. -/
theorem MachineDesc.Ok.apart_of_ne (hdesc : desc.Ok) (hinsn : insn ∈ desc.insns) (hother : other ∈ desc.insns)
    (hne : other ≠ insn) : clashes other insn = false := by
  have : Std.Symm fun other insn => clashes other insn = false := ⟨fun _ _ => clashes_symm⟩
  exact hdesc.apart.forall hother hinsn hne

/-- No two instructions of a description start at one place. -/
theorem MachineDesc.Ok.startsAt_unique (hdesc : desc.Ok) (hinsn : insn ∈ desc.insns) (hother : other ∈ desc.insns)
    (hat : insn.startsAt bytes at_ = true) (hat' : other.startsAt bytes at_ = true) : other = insn := by
  by_contra hne
  refine (clashes_eq_false_iff.mp (hdesc.apart_of_ne hinsn hother hne)).2 ?_
  have htake := (of_decide_eq_true hat).2
  have htake' := (of_decide_eq_true hat').2
  have hleft := congrArg (take (min other.prefixLength insn.prefixLength)) htake
  have hright := congrArg (take (min other.prefixLength insn.prefixLength)) htake'
  rw [take_take, take_take, min_eq_left (min_le_right _ _)] at hleft
  rw [take_take, take_take, min_eq_left (min_le_left _ _)] at hright
  rw [← hleft, ← hright]

/-- The bytes of an instruction decode to it and its operands. -/
theorem MachineDesc.Ok.decode_encode (hdesc : desc.Ok) (hinsn : insn ∈ desc.insns)
    (hout : insn.encode operands = some out)
    (hzero : ∀ which : Fin operandCount, insn.operands ≤ ((which : ℕ) : ℤ) → operands which = 0)
    (before rest : List (BitVec 8)) :
    machineDecode desc (before ++ out ++ rest) before.length = some (insn, operands, insn.length) := by
  have hencodes : Encodes operands insn.cells out := mapM_encode.mp hout
  have hdrop : (before ++ out ++ rest).drop before.length = out ++ rest := by
    rw [List.append_assoc, drop_left]
  have hstarts : insn.startsAt (before ++ out ++ rest) before.length = true := by
    refine decide_eq_true ⟨?_, ?_⟩
    · rw [length_append, length_append, hencodes.length_eq]
      exact Nat.le_add_right _ _
    · rw [hdrop]
      exact hencodes.take_prefix rest
  have hfind : desc.insns.find? (fun insn => insn.startsAt (before ++ out ++ rest) before.length) = some insn := by
    obtain ⟨found, hfound⟩ := isSome_iff_exists.mp
      (find?_isSome (p := fun insn : MachineInsn => insn.startsAt (before ++ out ++ rest) before.length) |>.mpr
        ⟨insn, hinsn, hstarts⟩)
    rw [hfound, hdesc.startsAt_unique hinsn (List.mem_of_find?_eq_some hfound) hstarts
      (find?_eq_some_iff_append.mp hfound).1]
  rw [machineDecode, hfind, map_some, hdrop, hencodes.readSlots]
  congr 2
  refine Prod.ext ?_ rfl
  funext which
  show (if Cell.slot which ∈ insn.cells then operands which else 0) = operands which
  split
  · rfl
  · rename_i hnot
    refine (hzero which (not_lt.mp fun hlt => hnot ?_)).symm
    exact of_decide_eq_true (((hdesc.insns insn hinsn).seen_iff which).mpr hlt)

/-! ## Lines -/

/-- What a line says is an instruction of the description, with no operands beyond its own. -/
theorem MachineDesc.readLine_spec (h : desc.readLine line = some (some (insn, operands))) :
    insn ∈ desc.insns ∧ ∀ which : Fin operandCount, insn.operands ≤ ((which : ℕ) : ℤ) → operands which = 0 := by
  unfold MachineDesc.readLine at h
  dsimp only at h
  split at h
  · cases h
  · obtain ⟨found, hfind, h⟩ := bind_eq_some_iff.mp h
    obtain ⟨given, -, h⟩ := bind_eq_some_iff.mp h
    obtain ⟨hlength, h⟩ := ite_none_left_eq_some.mp h
    obtain ⟨rfl, rfl⟩ := Prod.mk.inj (some.inj (some.inj h))
    refine ⟨List.mem_of_find?_eq_some hfind, fun which hle => ?_⟩
    show given.getD which 0 = 0
    rw [getD_eq_default]
    omega

/-- The bytes of the lines decode to what the lines say. -/
theorem MachineDesc.Ok.decodeFrom_lines (hdesc : desc.Ok)
    (h : Forall₂ (fun line out => machineAssemble desc line.1 line.2 = some out) lines outs) :
    ∀ (before : List (BitVec 8)) (steps : ℕ), outs.flatten.length ≤ steps →
      decodeFrom desc (before ++ outs.flatten) steps before.length =
        some (lines.filterMap fun line => (desc.readLine line.1).join) := by
  -- on the lines; what one line assembles to is read back before the rest
  induction h with
  | nil =>
    intro before steps _
    unfold decodeFrom
    rw [if_pos (by simp)]
    rfl
  | @cons line out lines outs hline _ ih =>
    intro before steps hsteps
    obtain ⟨said, hsaid, hline⟩ := bind_eq_some_iff.mp hline
    rw [filterMap_cons, hsaid, join_some]
    cases said with
    | none =>
      cases hline
      exact ih before steps hsteps
    | some item =>
      obtain ⟨insn, operands⟩ := item
      obtain ⟨-, hout⟩ := ite_none_left_eq_some.mp hline
      obtain ⟨hinsn, hzero⟩ := MachineDesc.readLine_spec hsaid
      have hlength : out.length = insn.length := (mapM_encode.mp hout).length_eq
      have hpos : 0 < insn.length := by
        have hbegins := (hdesc.insns insn hinsn).prefix_pos
        exact hbegins.trans_le (takeWhile_sublist _).length_le
      rw [flatten_cons, length_append] at hsteps
      obtain ⟨steps, rfl⟩ : ∃ steps', steps = steps' + 1 := ⟨steps - 1, by omega⟩
      have hdecode := hdesc.decode_encode hinsn hout hzero before outs.flatten
      have hrest := ih (before ++ out) steps (by omega)
      rw [length_append, hlength] at hrest
      rw [List.append_assoc] at hdecode hrest
      unfold decodeFrom
      rw [if_neg (by simp only [length_append, flatten_cons]; omega), flatten_cons, hdecode]
      simp only [bind_some]
      rw [hrest]
      rfl

/-! ## Assembling what was decoded -/

/-- The bytes fit the cells: the fixed bytes are there, and the bytes of a slot are all the same. -/
structure Fits (cells : List Cell) (bytes : List (BitVec 8)) : Prop where
  fixed : ∀ (k : ℕ) (byte : BitVec 8), cells[k]? = some (Cell.fixed byte) → bytes[k]? = some byte
  slots : ∀ (j k : ℕ) (which : Fin operandCount), cells[j]? = some (Cell.slot which) →
    cells[k]? = some (Cell.slot which) → bytes[j]? = bytes[k]?

/-- An operand without a slot keeps its value. -/
theorem readSlots_of_not_mem {start : Fin operandCount → ℤ} (h : Cell.slot which ∉ cells) :
    readSlots start cells bytes which = start which := by
  induction cells generalizing bytes start with
  | nil => cases bytes <;> rfl
  | cons cell cells ih =>
    rw [mem_cons, not_or] at h
    cases bytes with
    | nil => cases cell <;> rfl
    | cons byte bytes =>
      cases cell with
      | fixed _ => exact ih h.2
      | slot other =>
        refine (ih h.2).trans (Function.update_of_ne ?_ _ _)
        rintro rfl
        exact h.1 rfl

/-- A slot has the value of one of its bytes, or the value from before. -/
theorem readSlots_mem (start : Fin operandCount → ℤ) (hlength : cells.length ≤ bytes.length)
    (which : Fin operandCount) :
    Cell.slot which ∈ cells → ∃ (k : ℕ) (byte : BitVec 8), cells[k]? = some (Cell.slot which) ∧ bytes[k]? = some byte ∧
      readSlots start cells bytes which = (byte.toNat : ℤ) := by
  induction cells generalizing bytes start with
  | nil => exact fun h => absurd h not_mem_nil
  | cons cell cells ih =>
    cases bytes with
    | nil => simp at hlength
    | cons byte bytes =>
      simp only [length_cons, Nat.add_le_add_iff_right] at hlength
      intro hmem
      have hshift : ∀ start : Fin operandCount → ℤ, Cell.slot which ∈ cells →
          ∃ (k : ℕ) (byte' : BitVec 8), (cell :: cells)[k]? = some (Cell.slot which) ∧
            (byte :: bytes)[k]? = some byte' ∧
            readSlots start cells bytes which = (byte'.toNat : ℤ) := by
        intro start hin
        obtain ⟨k, byte', hcell, hbyte, hread⟩ := ih start hlength hin
        exact ⟨k + 1, byte', hcell, hbyte, hread⟩
      cases cell with
      | fixed fixedByte =>
        exact hshift start (by simpa using hmem)
      | slot which' =>
        by_cases hin : Cell.slot which ∈ cells
        · exact hshift _ hin
        · have hwhich : which = which' := by simpa [hin] using hmem
          subst hwhich
          refine ⟨0, byte, rfl, rfl, ?_⟩
          rw [readSlots, readSlots_of_not_mem hin, Function.update_self]

/-- What was decoded encodes to the bytes exactly when they fit. -/
theorem encodes_readSlots_iff (hlength : cells.length = bytes.length) (start : Fin operandCount → ℤ) :
    Encodes (readSlots start cells bytes) cells bytes ↔ Fits cells bytes := by
  unfold Encodes
  rw [forall₂_iff_get]
  constructor
  -- two cells of one slot would have to hold the same byte
  · rintro ⟨-, hall⟩
    have hget : ∀ (k : ℕ) (cell : Cell), cells[k]? = some cell → ∃ byte : BitVec 8, bytes[k]? = some byte ∧
        cell.encode (readSlots start cells bytes) = some byte := by
      intro k cell hcell
      obtain ⟨hk, rfl⟩ := List.getElem?_eq_some_iff.mp hcell
      exact ⟨bytes.get ⟨k, hlength ▸ hk⟩, List.getElem?_eq_getElem (hlength ▸ hk), hall k hk (hlength ▸ hk)⟩
    refine ⟨fun k byte hcell => ?_, fun j k which hj hk => ?_⟩
    · obtain ⟨byte', hbyte, hencode⟩ := hget k _ hcell
      rw [hbyte, encode_fixed hencode]
    · obtain ⟨bytej, hbytej, hencodej⟩ := hget j _ hj
      obtain ⟨bytek, hbytek, hencodek⟩ := hget k _ hk
      rw [hbytej, hbytek, eq_of_toNat_eq (x := bytej) (y := bytek)]
      have := (encode_slot hencodej).trans (encode_slot hencodek).symm
      exact_mod_cast this
  -- conversely every cell holds what was read from it
  · rintro ⟨hfixed, hslots⟩
    refine ⟨hlength, fun k hk hk' => ?_⟩
    have hcell : cells[k]? = some (cells.get ⟨k, hk⟩) := List.getElem?_eq_getElem hk
    have hbyte : bytes[k]? = some (bytes.get ⟨k, hk'⟩) := List.getElem?_eq_getElem hk'
    cases hc : cells.get ⟨k, hk⟩ with
    | fixed byte =>
      rw [hc] at hcell
      have hfix := hfixed k byte hcell
      rw [hbyte] at hfix
      exact hfix.symm
    | slot which =>
      rw [hc] at hcell
      obtain ⟨j, byte, hj, hbytej, hread⟩ :=
        readSlots_mem start hlength.le which (mem_of_getElem? hcell)
      have hsame := hslots j k which hj hcell
      rw [hbytej, hbyte] at hsame
      rw [Cell.encode, hread, if_neg (by have := byte.isLt; omega), ← some.inj hsame]
      congr 1
      apply eq_of_toNat_eq
      rw [toNat_ofInt]
      omega

/-- What is decoded is an instruction of the description, with the operands read from its slots. -/
theorem machineDecode_spec (h : machineDecode desc bytes at_ = some (insn, operands, consumed)) :
    insn ∈ desc.insns ∧ consumed = insn.length ∧ at_ + insn.length ≤ bytes.length ∧
      operands = readSlots (fun _ => 0) insn.cells (bytes.drop at_) := by
  obtain ⟨found, hfind, heq⟩ := map_eq_some_iff.mp h
  obtain ⟨rfl, hrest⟩ := Prod.mk.inj heq
  cases hrest
  obtain ⟨hstarts, -⟩ := find?_eq_some_iff_append.mp hfind
  exact ⟨List.mem_of_find?_eq_some hfind, rfl, (of_decide_eq_true hstarts).1, rfl⟩

/-- Bytes behind the cells are not read. -/
theorem readSlots_take (start : Fin operandCount → ℤ) :
    readSlots start cells (bytes.take cells.length) = readSlots start cells bytes := by
  induction cells generalizing bytes start with
  | nil => cases bytes <;> rfl
  | cons cell cells ih =>
    cases bytes with
    | nil => rfl
    | cons byte bytes =>
      cases cell with
      | fixed _ => exact ih start
      | slot which => exact ih _

/-- A line that says what was decoded assembles to the bytes that were read exactly when they fit. -/
theorem machineAssemble_decode_iff (h : machineDecode desc bytes at_ = some (insn, operands, consumed))
    (hline : desc.readLine line = some (some (insn, operands))) (hcapacity : consumed ≤ capacity) :
    machineAssemble desc line capacity = some ((bytes.drop at_).take consumed) ↔
      Fits insn.cells ((bytes.drop at_).take consumed) := by
  obtain ⟨-, rfl, hlength, rfl⟩ := machineDecode_spec h
  have htake : ((bytes.drop at_).take insn.length).length = insn.length := by
    rw [length_take, length_drop]
    omega
  rw [machineAssemble, hline, bind_some]
  dsimp only
  rw [if_neg (not_lt.mpr hcapacity), MachineInsn.encode, mapM_encode, ← encodes_readSlots_iff htake.symm fun _ => 0]
  show Encodes _ _ _ ↔ Encodes (readSlots _ _ ((bytes.drop at_).take insn.cells.length)) _ _
  rw [readSlots_take]

/-! ## The line of a decoded instruction -/

/-- The operands that an instruction takes, as a line gives them. -/
def MachineInsn.given (insn : MachineInsn) (operands : Fin operandCount → ℤ) : List ℤ :=
  ((List.finRange operandCount).filter fun which : Fin operandCount =>
    decide (((which : ℕ) : ℤ) < insn.operands)).map operands

/-- The line that names an instruction and gives its operands in decimal. -/
def machineLine (insn : MachineInsn) (operands : Fin operandCount → ℤ) : Text :=
  insn.name ++ (insn.given operands).flatMap fun value => ' ' :: Nat.toDigits 10 value.toNat

/-- Digits up to a space are all taken. -/
theorem takeDigits_append {base : ℕ} {digits : Text} (hdigits : digits.all fun c => (digitOf base c).isSome)
    (hstop : stop = [] ∨ ∃ text, stop = ' ' :: text) (value : BitVec 64) :
    takeDigits base value (digits ++ stop) =
      (digits.foldl (fun value c => value * BitVec.ofNat 64 base + BitVec.ofNat 64 ((digitOf base c).getD 0)) value,
        stop) := by
  induction digits generalizing value with
  | nil => rcases hstop with rfl | ⟨text, rfl⟩ <;> rfl
  | cons c digits ih =>
    rw [all_cons, Bool.and_eq_true_iff] at hdigits
    obtain ⟨digit, hdigit⟩ := isSome_iff_exists.mp hdigits.1
    rw [List.cons_append, takeDigits, hdigit]
    dsimp only
    rw [ih hdigits.2, foldl_cons, hdigit, getD_some]

/-- How a byte is written: digits that start with no zero, or one zero. -/
def writesByte (value : ℕ) : Text → Bool
  | [] => false
  | c :: digits =>
    if value = 0 then c = '0' ∧ digits = []
    else
      c ≠ '0' ∧ isBlank c = false ∧ c ≠ '-' ∧ c ≠ '+' ∧ c ≠ ',' ∧ ((c :: digits).all fun c => (digitOf 10 c).isSome) ∧
        (c :: digits).foldl (fun value c => value * 10#64 + BitVec.ofNat 64 ((digitOf 10 c).getD 0)) 0 =
          BitVec.ofNat 64 value

/-- The decimal digits of a byte are read back as the byte. -/
theorem writesByte_toDigits : ∀ value < 256, writesByte value (Nat.toDigits 10 value) = true := by
  decide +kernel

/-- A number that does not start with zero is decimal. -/
theorem numberBase_of_ne {c : Char} (h : c ≠ '0') : numberBase 0 (c :: text) = (10, c :: text) := by
  unfold numberBase
  split
  · rename_i heq
    exact absurd (cons.inj heq).1 h
  · rename_i heq
    exact absurd (cons.inj heq).1 h
  · rfl

/-- A byte in decimal is read back. -/
theorem strtoll_toDigits (value : ℕ) (hvalue : value < 256) (hstop : stop = [] ∨ ∃ text, stop = ' ' :: text) :
    strtoll (Nat.toDigits 10 value ++ stop) 0 = ((value : ℤ), stop) := by
  have hwrites := writesByte_toDigits value hvalue
  cases hdigits : Nat.toDigits 10 value with
  | nil =>
    rw [hdigits] at hwrites
    cases hwrites
  | cons c digits =>
    rw [hdigits, writesByte] at hwrites
    split at hwrites
    · rename_i hzero
      obtain ⟨rfl, rfl⟩ := of_decide_eq_true hwrites
      rw [hzero]
      rcases hstop with rfl | ⟨text, rfl⟩ <;> rfl
    · obtain ⟨hzero, hblank, hminus, hplus, -, hall, hvalue'⟩ := of_decide_eq_true hwrites
      -- neither `strtoll` nor `strtoull` finds anything to skip
      have hdrop : (c :: (digits ++ stop)).dropWhile isBlank = c :: (digits ++ stop) := by
        rw [dropWhile_cons, hblank]
        rfl
      have htake := takeDigits_append hall hstop 0
      rw [hvalue', List.cons_append] at htake
      have hunsigned : strtoull (c :: (digits ++ stop)) 0 = (BitVec.ofNat 64 value, stop) := by
        unfold strtoull
        rw [hdrop]
        simp only [cons.injEq, hplus, numberBase_of_ne hzero, false_and, imp_self, implies_true, htake]
      unfold strtoll
      rw [List.cons_append, hdrop]
      simp only [cons.injEq, hminus, hplus, false_and, imp_self, implies_true, hunsigned, Bool.false_eq_true,
        if_false]
      rw [toInt_eq_toNat_of_lt (by rw [toNat_ofNat]; omega), toNat_ofNat, Nat.mod_eq_of_lt (by omega)]

/-- The first digit is no separator. -/
theorem head_toDigits (value : ℕ) (hvalue : value < 256) :
    ∃ c digits, Nat.toDigits 10 value = c :: digits ∧ c ≠ ' ' ∧ c ≠ ',' := by
  have hwrites := writesByte_toDigits value hvalue
  cases hdigits : Nat.toDigits 10 value with
  | nil =>
    rw [hdigits] at hwrites
    cases hwrites
  | cons c digits =>
    refine ⟨c, digits, rfl, ?_⟩
    rw [hdigits, writesByte] at hwrites
    split at hwrites
    · obtain ⟨rfl, -⟩ := of_decide_eq_true hwrites
      decide
    · obtain ⟨-, hspace, -, -, hcomma, -⟩ := of_decide_eq_true hwrites
      refine ⟨?_, hcomma⟩
      rintro rfl
      cases hspace

/-- The operands of the line are read back. -/
theorem readOperands_flatMap {values : List ℤ} (hvalues : ∀ value ∈ values, 0 ≤ value ∧ value < 256) {room : ℕ}
    (hroom : values.length ≤ room) :
    readOperands room (values.flatMap fun value => ' ' :: Nat.toDigits 10 value.toNat) = some values := by
  induction values generalizing room with
  | nil =>
    unfold readOperands
    rfl
  | cons value values ih =>
    obtain ⟨room, rfl⟩ : ∃ room', room = room' + 1 := ⟨room - 1, by rw [length_cons] at hroom; omega⟩
    obtain ⟨hlow, hhigh⟩ := hvalues value mem_cons_self
    obtain ⟨c, digits, hdigits, hspace, hcomma⟩ := head_toDigits value.toNat (by omega)
    have hstop : (values.flatMap fun value => ' ' :: Nat.toDigits 10 value.toNat) = [] ∨
        ∃ text, (values.flatMap fun value => ' ' :: Nat.toDigits 10 value.toNat) = ' ' :: text := by
      cases values with
      | nil => exact Or.inl rfl
      | cons value' values => exact Or.inr ⟨_, flatMap_cons⟩
    have hread := strtoll_toDigits value.toNat (by omega) hstop
    rw [Int.toNat_of_nonneg hlow, hdigits, List.cons_append] at hread
    -- the number is not empty, so `strtoll` stops behind where it started
    have hmoves : (values.flatMap fun value => ' ' :: Nat.toDigits 10 value.toNat) ≠ c :: (digits ++
        values.flatMap fun value => ' ' :: Nat.toDigits 10 value.toNat) := by
      intro h
      have := congrArg List.length h
      simp only [length_cons, length_append] at this
      omega
    have hrest := ih (fun value' h => hvalues value' (.tail _ h)) (Nat.le_of_succ_le_succ hroom)
    unfold readOperands
    rw [flatMap_cons, hdigits, List.cons_append, List.cons_append, dropWhile_cons,
      if_pos (by decide), dropWhile_cons, if_neg (by simp [hspace, hcomma])]
    simp only [hread, if_neg hmoves]
    rw [hrest]
    rfl

/-- In a description an instruction is found by its name. -/
theorem MachineDesc.Ok.find_name (hdesc : desc.Ok) (hinsn : insn ∈ desc.insns) : desc.find insn.name = some insn := by
  unfold MachineDesc.find
  obtain ⟨found, hfound⟩ := isSome_iff_exists.mp
    (find?_isSome (p := fun insn' : MachineInsn => decide (insn'.name = insn.name)) |>.mpr
      ⟨insn, hinsn, decide_eq_true rfl⟩)
  have hname : found.name = insn.name := of_decide_eq_true (find?_eq_some_iff_append.mp hfound).1
  rw [hfound]
  by_contra hne
  have hapart := hdesc.apart_of_ne hinsn (List.mem_of_find?_eq_some hfound) fun h => hne (congrArg some h)
  exact (clashes_eq_false_iff.mp hapart).1 hname

/-- The operands of the line: those below the number that the instruction takes. -/
theorem MachineInsn.Ok.given_eq (hok : insn.Ok) (operands : Fin operandCount → ℤ) : ∃ count ≤ operandCount, insn.operands = ((count : ℕ) : ℤ) ∧
    insn.given operands = ((finRange operandCount).take count).map operands := by
  obtain ⟨count, hcount⟩ := Int.eq_ofNat_of_zero_le hok.operands_nonneg
  have hle : count ≤ 3 := by
    have := hok.operands_le
    rw [hcount] at this
    exact_mod_cast this
  refine ⟨count, hle, hcount, ?_⟩
  unfold MachineInsn.given
  rw [hcount]
  congr 1
  interval_cases count <;> rfl

/-- The line of decoded operands says the instruction and the operands. -/
theorem MachineDesc.Ok.readLine_machineLine (hdesc : desc.Ok) (hinsn : insn ∈ desc.insns) (hname : ' ' ∉ insn.name)
    (hbyte : ∀ which, 0 ≤ operands which ∧ operands which < 256)
    (hzero : ∀ which : Fin operandCount, insn.operands ≤ ((which : ℕ) : ℤ) → operands which = 0) :
    desc.readLine (machineLine insn operands) = some (some (insn, operands)) := by
  have hok := hdesc.insns insn hinsn
  obtain ⟨count, hcount, hoperands, hgiven⟩ := hok.given_eq operands
  have hlength : (insn.given operands).length = count := by
    rw [hgiven, length_map, length_take, length_finRange, min_eq_left hcount]
  have hread : readOperands operandCount
      ((insn.given operands).flatMap fun value => ' ' :: Nat.toDigits 10 value.toNat) = some (insn.given operands) := by
    refine readOperands_flatMap (fun value hvalue => ?_) (hlength ▸ hcount)
    obtain ⟨which, -, rfl⟩ := List.mem_map.mp hvalue
    exact hbyte which
  have hgetD : ∀ which : Fin operandCount, (insn.given operands).getD which 0 = operands which := by
    intro which
    rw [hgiven, getD_eq_getElem?_getD, List.getElem?_map, List.getElem?_take]
    split
    · rw [List.getElem?_eq_getElem (by simp), getElem_finRange]
      rfl
    · rename_i hle
      rw [hzero which (by rw [hoperands]; exact_mod_cast not_lt.mp hle)]
      rfl
  -- the mnemonic ends at the first space
  have htail : ((insn.given operands).flatMap fun value => ' ' :: Nat.toDigits 10 value.toNat).takeWhile (· ≠ ' ') =
      [] := by
    cases insn.given operands with
    | nil => rfl
    | cons value values =>
      rfl
  have hmnemonic : ((machineLine insn operands).takeWhile (· ≠ ' ')).take 63 = insn.name := by
    unfold machineLine
    rw [takeWhile_append_of_pos, htail, append_nil, take_of_length_le hok.name_length]
    exact fun c hc => decide_eq_true fun heq => hname (heq ▸ hc)
  have hdrop : (machineLine insn operands).dropWhile (· = ' ') = machineLine insn operands := by
    unfold machineLine
    cases hcases : insn.name with
    | nil => exact absurd hcases hok.name_ne
    | cons c name =>
      rw [List.cons_append, dropWhile_cons, if_neg]
      rw [decide_eq_true_eq]
      rintro rfl
      exact hname (hcases ▸ (.head _))
  unfold MachineDesc.readLine
  dsimp only
  rw [hdrop, hmnemonic, if_neg hok.name_ne, hdesc.find_name hinsn, bind_some]
  unfold machineLine
  rw [drop_left, hread, bind_some, hlength, hoperands, if_neg (not_not.mpr rfl)]
  rw [funext hgetD]

/-- No line says an instruction whose name has a space. -/
theorem MachineDesc.readLine_name (h : desc.readLine line = some (some (insn, operands))) : ' ' ∉ insn.name := by
  unfold MachineDesc.readLine at h
  dsimp only at h
  split at h
  · cases h
  · obtain ⟨found, hfind, h⟩ := bind_eq_some_iff.mp h
    obtain ⟨given, -, h⟩ := bind_eq_some_iff.mp h
    obtain ⟨-, h⟩ := ite_none_left_eq_some.mp h
    obtain ⟨rfl, -⟩ := Prod.mk.inj (some.inj (some.inj h))
    have hname := of_decide_eq_true (find?_eq_some_iff_append.mp hfind).1
    rw [hname]
    intro hspace
    have hne := mem_takeWhile_imp (mem_of_mem_take hspace)
    exact absurd rfl (of_decide_eq_true hne)

/-- What is read from bytes is a byte. -/
theorem readSlots_range (hlength : cells.length ≤ bytes.length) (which : Fin operandCount) :
    0 ≤ readSlots (fun _ => 0) cells bytes which ∧ readSlots (fun _ => 0) cells bytes which < 256 := by
  by_cases hmem : Cell.slot which ∈ cells
  · obtain ⟨k, byte, -, -, hread⟩ := readSlots_mem (fun _ => 0) hlength which hmem
    omega
  · rw [readSlots_of_not_mem hmem]
    omega

/-- Assembling the line of a decoded instruction gives the bytes that were read exactly when the name can be written
and the bytes fit. -/
theorem MachineDesc.Ok.machineAssemble_machineLine_iff (hdesc : desc.Ok)
    (h : machineDecode desc bytes at_ = some (insn, operands, consumed)) (hcapacity : consumed ≤ capacity) :
    machineAssemble desc (machineLine insn operands) capacity = some ((bytes.drop at_).take consumed) ↔
      ' ' ∉ insn.name ∧ Fits insn.cells ((bytes.drop at_).take consumed) := by
  obtain ⟨hinsn, hconsumed, hlength, hoperands⟩ := machineDecode_spec h
  have hok := hdesc.insns insn hinsn
  have hroom : insn.cells.length ≤ (bytes.drop at_).length := by
    rw [length_drop]
    show insn.length ≤ _
    omega
  have hreads (hname : ' ' ∉ insn.name) : desc.readLine (machineLine insn operands) = some (some (insn, operands)) := by
    refine hdesc.readLine_machineLine hinsn hname (fun which => ?_) fun which hle => ?_
    · rw [hoperands]
      exact readSlots_range hroom which
    · rw [hoperands]
      refine readSlots_of_not_mem fun hmem => ?_
      exact absurd ((hok.seen_iff which).mp (decide_eq_true hmem)) (not_lt.mpr hle)
  constructor
  · intro hassemble
    have hname : ' ' ∉ insn.name := by
      -- what the line says starts where the instruction does, so it is the instruction
      obtain ⟨said, hsaid, hline⟩ := bind_eq_some_iff.mp hassemble
      have hpos : 0 < insn.length := hok.prefix_pos.trans_le (takeWhile_sublist _).length_le
      have htake : ((bytes.drop at_).take consumed).length = insn.length := by
        rw [length_take, hconsumed]
        exact min_eq_left hroom
      cases said with
      | none =>
        rw [← some.inj hline] at htake
        exact absurd htake hpos.ne
      | some item =>
        obtain ⟨other, given⟩ := item
        obtain ⟨-, hout⟩ := ite_none_left_eq_some.mp hline
        obtain ⟨hother, hzero⟩ := MachineDesc.readLine_spec hsaid
        have hstart : other.startsAt bytes at_ = true := by
          have hencodes : Encodes given other.cells ((bytes.drop at_).take consumed) := mapM_encode.mp hout
          have hlen : other.length = insn.length := hencodes.length_eq.symm.trans htake
          refine decide_eq_true ⟨hlen ▸ hlength, ?_⟩
          have hbegins := hencodes.take_prefix ((bytes.drop at_).drop consumed)
          rw [take_append_drop] at hbegins
          exact hbegins
        have hstart' : insn.startsAt bytes at_ = true := by
          obtain ⟨found, hfind, heq⟩ := map_eq_some_iff.mp h
          obtain ⟨rfl, -⟩ := Prod.mk.inj heq
          exact (find?_eq_some_iff_append.mp hfind).1
        rw [← hdesc.startsAt_unique hinsn hother hstart' hstart]
        exact MachineDesc.readLine_name hsaid
    exact ⟨hname, (machineAssemble_decode_iff h (hreads hname) hcapacity).mp hassemble⟩
  · rintro ⟨hname, hfits⟩
    exact (machineAssemble_decode_iff h (hreads hname) hcapacity).mpr hfits

/-- The bytes of the lines are as many as their instructions take. -/
theorem lines_length (h : Forall₂ (fun line out => machineAssemble desc line.1 line.2 = some out) lines outs) :
    ((lines.filterMap fun line => (desc.readLine line.1).join).map fun item => item.1.length).sum =
      outs.flatten.length := by
  induction h with
  | nil => rfl
  | @cons line out lines outs hline _ ih =>
    obtain ⟨said, hsaid, hline⟩ := bind_eq_some_iff.mp hline
    rw [filterMap_cons, hsaid, join_some, flatten_cons, length_append]
    cases said with
    | none =>
      cases hline
      rw [length_nil, Nat.zero_add]
      exact ih
    | some item =>
      obtain ⟨-, hout⟩ := ite_none_left_eq_some.mp hline
      rw [map_cons, sum_cons, ih, (mapM_encode.mp hout).length_eq]
      rfl

/-- Over a description that was read: the bytes of assembled lines decode to what the lines say, to their end, and
the line of a decoded instruction assembles to its bytes exactly when the name can be written and the bytes that the
decoder did not look at fit. -/
theorem machine_assemble_decode (program : List Declaration) (desc : MachineDesc)
    (hdesc : machineDescRead program = some desc) :
    (∀ (lines : List (Text × ℕ)) (outs : List (List (BitVec 8))),
      List.Forall₂ (fun line out => machineAssemble desc line.1 line.2 = some out) lines outs →
      decodeFrom desc outs.flatten outs.flatten.length 0 =
          some (lines.filterMap fun line => (desc.readLine line.1).join) ∧
        ((lines.filterMap fun line => (desc.readLine line.1).join).map fun item => item.1.length).sum =
          outs.flatten.length) ∧
    ∀ (bytes : List (BitVec 8)) (at_ : ℕ) (insn : MachineInsn) (operands : Fin operandCount → ℤ)
      (consumed capacity : ℕ), machineDecode desc bytes at_ = some (insn, operands, consumed) → consumed ≤ capacity →
      (machineAssemble desc (machineLine insn operands) capacity = some ((bytes.drop at_).take consumed) ↔
        ' ' ∉ insn.name ∧ Fits insn.cells ((bytes.drop at_).take consumed)) := by
  have hok := machineDescRead_ok hdesc
  refine ⟨fun lines outs hlines => ⟨?_, lines_length hlines⟩, fun bytes at_ insn operands consumed capacity h hle => ?_⟩
  · exact hok.decodeFrom_lines hlines [] _ le_rfl
  · exact hok.machineAssemble_machineLine_iff h hle

/-- A machine of one instruction, whose encoding ends in a fixed byte. -/
def storeMachine : List Declaration :=
  [.function "run".toList 3, .variable (some "MachineInsn[1]".toList) (some "ISA".toList) true (some
    [.struct [(some "name", .string "st".toList), (some "encoding", .string "01 %0 FF".toList),
      (some "operands", .number 1 false), (some "semantics", .string "run".toList)]])]

theorem operandCount_pos : 0 < operandCount := Nat.zero_lt_succ 2

/-- The instruction of it. -/
def storeInsn : MachineInsn where
  name := "st".toList
  semantics := "run".toList
  operands := 1
  cells := [Cell.fixed 0x01, Cell.slot ⟨0, operandCount_pos⟩, Cell.fixed 0xFF]

/-- What is read of it. -/
def storeDesc : MachineDesc where
  name := "ISA".toList
  insns := [storeInsn]

theorem machineDescRead_store : machineDescRead storeMachine = some storeDesc := by
  decide

/-- The second line gives 0, a `0x` without a digit. -/
theorem machine_assemble_decode_store :
    decodeFrom storeDesc [0x01, 0x07, 0xFF, 0x01, 0x00, 0xFF] 6 0 =
        some ([("st 7".toList, 8), ("st 0x".toList, 8)].filterMap fun line => (storeDesc.readLine line.1).join) ∧
      (machineAssemble storeDesc (machineLine storeInsn fun which => if which = 0 then 7 else 0) 8 =
          some ([0x01, 0x07, 0xFF].take 3) ↔
        ' ' ∉ storeInsn.name ∧ Fits storeInsn.cells ([0x01, 0x07, 0xFF].take 3)) := by
  have hstore := machine_assemble_decode storeMachine storeDesc machineDescRead_store
  constructor
  · exact (hstore.1 [("st 7".toList, 8), ("st 0x".toList, 8)] [[0x01, 0x07, 0xFF], [0x01, 0x00, 0xFF]]
      (List.Forall₂.cons (by decide) (List.Forall₂.cons (by decide) List.Forall₂.nil))).1
  · exact hstore.2 [0x01, 0x07, 0xFF] 0 storeInsn (fun which => if which = 0 then 7 else 0) 3 8 (by decide)
      (by decide)

/-- The last byte is not looked at: what is decoded assembles to another. -/
theorem machine_decode_ignores_fixed :
    machineDescRead storeMachine = some storeDesc ∧
      machineDecode storeDesc [0x01, 0x07, 0x00] 0 = some (storeInsn, fun which => if which = 0 then 7 else 0, 3) ∧
      machineAssemble storeDesc "st 7".toList 8 = some [0x01, 0x07, 0xFF] ∧
      machineAssemble storeDesc (machineLine storeInsn fun which => if which = 0 then 7 else 0) 8 ≠
        some (([0x01, 0x07, 0x00] : List (BitVec 8)).take 3) := by
  decide

end Mettle.Semantic.Machine

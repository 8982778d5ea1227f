import Mettle.Lib.Bytes

/-!
# A fragment of x86-64

Loads from an address relative to the next instruction, address computations, and the arithmetic and test
instructions with such a memory operand or an immediate one: their encodings, and what they do to the registers and
the flags. Memory is the doubleword at each address.
-/

open List Option BitVec

namespace Mettle.X86

abbrev Byte := BitVec 8

/-! ## Instructions -/

/-- The operand size. -/
inductive Width where
  | w16
  | w32
  | w64
  deriving DecidableEq, Repr

def Width.bits : Width → ℕ
  | .w16 => 16
  | .w32 => 32
  | .w64 => 64

/-- The eight operations of the arithmetic group, in the order of their numbers. -/
inductive AluOp where
  | add
  | or
  | adc
  | sbb
  | and
  | sub
  | xor
  | cmp
  deriving DecidableEq, Repr

/-- A second operand: memory at a displacement from the next instruction, or an immediate. -/
inductive Source where
  | ripMem (disp : BitVec 32)
  | imm (value : BitVec 32)
  deriving DecidableEq, Repr

inductive Insn where
  | mov (w : Width) (dst : Fin 16) (disp : BitVec 32)
  | lea (w : Width) (dst : Fin 16) (disp : BitVec 32)
  | alu (op : AluOp) (w : Width) (dst : Fin 16) (source : Source)
  | test (w : Width) (dst : Fin 16) (source : Source)
  deriving DecidableEq, Repr

/-- The instruction reads memory at a displacement. -/
def Insn.isLoad : Insn → Bool
  | .mov _ _ _ | .alu _ _ _ (.ripMem _) | .test _ _ (.ripMem _) => true
  | _ => false

/-- The instruction moves memory to a register. -/
def Insn.isMov : Insn → Bool
  | .mov _ _ _ => true
  | _ => false

/-- The same instruction with another displacement. -/
def Insn.withDisp (disp : BitVec 32) : Insn → Insn
  | .mov w dst _ => .mov w dst disp
  | .alu op w dst (.ripMem _) => .alu op w dst (.ripMem disp)
  | .test w dst (.ripMem _) => .test w dst (.ripMem disp)
  | insn => insn

/-! ## Encodings -/

/-- The bits of a REX prefix. -/
structure Rex where
  w : Bool
  r : Bool
  x : Bool
  b : Bool
  deriving DecidableEq, Repr

def Rex.ofByte (byte : Byte) : Option Rex :=
  if byte &&& 0xF0 = 0x40 then
    some ⟨byte.getLsbD 3, byte.getLsbD 2, byte.getLsbD 1, byte.getLsbD 0⟩
  else none

/-- What stands before an opcode: the prefix of the operand size and REX. -/
structure Prefixes where
  opsize : Bool := false
  rex : Option Rex := none
  deriving DecidableEq, Repr

namespace Prefixes

def length (p : Prefixes) : ℕ := p.opsize.toNat + p.rex.isSome.toNat

def width (p : Prefixes) : Width :=
  if p.rex.elim false Rex.w then .w64 else if p.opsize then .w16 else .w32

/-- The register of three bits of ModRM, extended by a bit of REX. -/
def register (extension : Bool) (bits : Byte) : Fin 16 :=
  Fin.ofNat 16 (bits.toNat % 8 + if extension then 8 else 0)

def reg (p : Prefixes) (modrm : Byte) : Fin 16 := register (p.rex.elim false Rex.r) (modrm >>> 3)

def rm (p : Prefixes) (modrm : Byte) : Fin 16 := register (p.rex.elim false Rex.b) modrm

end Prefixes

/-- A REX prefix, when there is one. -/
def takeRex (opsize : Bool) : List Byte → Prefixes × List Byte
  | [] => ({ opsize }, [])
  | byte :: bytes =>
    match Rex.ofByte byte with
    | some rex => ({ opsize, rex := some rex }, bytes)
    | none => ({ opsize }, byte :: bytes)

/-- The prefixes, and what follows them. -/
def takePrefixes : List Byte → Prefixes × List Byte
  | [] => ({}, [])
  | byte :: bytes => if byte = 0x66 then takeRex true bytes else takeRex false (byte :: bytes)

/-- The operation of an opcode that loads its second operand. -/
def AluOp.ofOpcode (opcode : Byte) : Option AluOp :=
  if opcode = 0x03 then some .add
  else if opcode = 0x0B then some .or
  else if opcode = 0x13 then some .adc
  else if opcode = 0x1B then some .sbb
  else if opcode = 0x23 then some .and
  else if opcode = 0x2B then some .sub
  else if opcode = 0x33 then some .xor
  else if opcode = 0x3B then some .cmp
  else none

/-- The operation of a number. -/
def AluOp.ofNumber : ℕ → AluOp
  | 0 => .add
  | 1 => .or
  | 2 => .adc
  | 3 => .sbb
  | 4 => .and
  | 5 => .sub
  | 6 => .xor
  | _ => .cmp

/-- The operation that the three middle bits of ModRM name. -/
def AluOp.ofModrm (modrm : Byte) : AluOp := AluOp.ofNumber ((modrm >>> 3).toNat % 8)

/-- The number of four bytes. -/
def word32 (bytes : List Byte) : BitVec 32 := BitVec.ofNat 32 (Bytes.leValue bytes)

/-- How many bytes an immediate takes. -/
def Width.immediateLength : Width → ℕ
  | .w16 => 2
  | .w32 | .w64 => 4

/-- The immediate at the start of the bytes. -/
def immediate (w : Width) (bytes : List Byte) : Option (BitVec 32) :=
  if bytes.length < w.immediateLength then none
  else
    some (match w with
      | .w16 => (BitVec.ofNat 16 (Bytes.leValue (bytes.take 2))).signExtend 32
      | .w32 | .w64 => word32 (bytes.take 4))

/-- An instruction after its prefixes, and how many bytes it takes there. -/
def decodeOpcode (p : Prefixes) : List Byte → Option (Insn × ℕ)
  | opcode :: modrm :: bytes =>
    if modrm &&& 0xC7 = 0x05 then
      if bytes.length < 4 then none
      else
        let disp := word32 (bytes.take 4)
        if opcode = 0x8B then some (.mov p.width (p.reg modrm) disp, 6)
        else if opcode = 0x8D then some (.lea p.width (p.reg modrm) disp, 6)
        else if opcode = 0x85 then some (.test p.width (p.reg modrm) (.ripMem disp), 6)
        else (AluOp.ofOpcode opcode).map fun op => (.alu op p.width (p.reg modrm) (.ripMem disp), 6)
    else if modrm &&& 0xC0 = 0xC0 then
      (immediate p.width bytes).bind fun value =>
        if opcode = 0x81 then
          some (.alu (AluOp.ofModrm modrm) p.width (p.rm modrm) (.imm value), 2 + p.width.immediateLength)
        else if opcode = 0xF7 ∧ (modrm >>> 3).toNat % 8 = 0 then
          some (.test p.width (p.rm modrm) (.imm value), 2 + p.width.immediateLength)
        else none
    else none
  | _ => none

/-- The instruction at the start of the bytes, and its length. -/
def decode (bytes : List Byte) : Option (Insn × ℕ) :=
  let (p, rest) := takePrefixes bytes
  (decodeOpcode p rest).map fun (insn, length) => (insn, p.length + length)

/-! ## Execution -/

structure Flags where
  cf : Bool := false
  pf : Bool := false
  af : Bool := false
  zf : Bool := false
  sf : Bool := false
  of : Bool := false
  deriving DecidableEq, Repr

structure State where
  regs : Fin 16 → BitVec 64
  flags : Flags

/-- The flags that a result gives, with carries and overflow as found. -/
def Flags.ofResult {n : ℕ} (value : BitVec n) (cf af of : Bool) : Flags where
  cf := cf
  pf := ((List.range 8).filter value.getLsbD).length % 2 = 0
  af := af
  zf := value = 0
  sf := value.msb
  of := of

/-- The result and the flags of an operation; the auxiliary carry, which the bitwise ones leave open, is clear. -/
def AluOp.eval {n : ℕ} (carry : Bool) (a b : BitVec n) : AluOp → BitVec n × Flags
  | .add => sum a b false
  | .adc => sum a b carry
  | .sub | .cmp => difference a b false
  | .sbb => difference a b carry
  | .or => bitwise (a ||| b)
  | .and => bitwise (a &&& b)
  | .xor => bitwise (a ^^^ b)
where
  sum (a b : BitVec n) (carry : Bool) : BitVec n × Flags :=
    let value := a + b + BitVec.ofNat n carry.toNat
    (value, .ofResult value (2 ^ n ≤ a.toNat + b.toNat + carry.toNat)
      (16 ≤ a.toNat % 16 + b.toNat % 16 + carry.toNat) (value.toInt ≠ a.toInt + b.toInt + carry.toNat))
  difference (a b : BitVec n) (carry : Bool) : BitVec n × Flags :=
    let value := a - b - BitVec.ofNat n carry.toNat
    (value, .ofResult value (a.toNat < b.toNat + carry.toNat) (a.toNat % 16 < b.toNat % 16 + carry.toNat)
      (value.toInt ≠ a.toInt - b.toInt - carry.toNat))
  bitwise (value : BitVec n) : BitVec n × Flags := (value, .ofResult value false false false)

/-- The low part of a register. -/
def State.read (s : State) (w : Width) (r : Fin 16) : BitVec w.bits := (s.regs r).setWidth w.bits

/-- Write the low part of a register: a doubleword clears the rest, a word leaves it. -/
def State.write (s : State) (w : Width) (r : Fin 16) (value : BitVec w.bits) : State :=
  let whole : BitVec 64 :=
    match w with
    | .w16 => (s.regs r &&& ~~~0xFFFF) ||| value.setWidth 64
    | .w32 | .w64 => value.setWidth 64
  { s with regs := Function.update s.regs r whole }

/-- The value of a second operand. -/
def Source.value (w : Width) (next : BitVec 64) (load : BitVec 64 → BitVec 64) : Source → BitVec w.bits
  | .ripMem disp => (load (next + disp.signExtend 64)).setWidth w.bits
  | .imm value => (value.signExtend 64).setWidth w.bits

/-- What an instruction does, when `next` is the address after it. -/
def exec (next : BitVec 64) (load : BitVec 64 → BitVec 64) (s : State) : Insn → State
  | .mov w dst disp => s.write w dst ((Source.ripMem disp).value w next load)
  | .lea w dst disp => s.write w dst ((next + disp.signExtend 64).setWidth w.bits)
  | .alu op w dst source =>
    let (value, flags) := op.eval s.flags.cf (s.read w dst) (source.value w next load)
    let s' := if op = .cmp then s else s.write w dst value
    { s' with flags }
  | .test w dst source =>
    { s with flags := (AluOp.and.eval s.flags.cf (s.read w dst) (source.value w next load)).2 }

/-! ## Operands of one value -/

section

variable {next target : BitVec 64} {load : BitVec 64 → BitVec 64} {disp value : BitVec 32} {w : Width} {dst : Fin 16}
  {op : AluOp} {s : State}

/-- A load of an address is the computation of that address. -/
theorem exec_lea (h : load (next + disp.signExtend 64) = next + value.signExtend 64) :
    exec next load s (.lea w dst value) = exec next load s (.mov w dst disp) := by
  rw [exec, exec, Source.value, h]

section

variable (h : load (next + disp.signExtend 64) = value.signExtend 64)
include h

/-- A memory operand is an immediate that has its value. -/
theorem value_imm : (Source.imm value).value w next load = (Source.ripMem disp).value w next load := by
  rw [Source.value, Source.value, h]

/-- An operation with an immediate does what it does with a word in memory that holds it. -/
theorem exec_alu_imm :
    exec next load s (.alu op w dst (.imm value)) = exec next load s (.alu op w dst (.ripMem disp)) := by
  rw [exec, exec, value_imm h]

/-- So does a test. -/
theorem exec_test_imm :
    exec next load s (.test w dst (.imm value)) = exec next load s (.test w dst (.ripMem disp)) := by
  rw [exec, exec, value_imm h]

end

/-- What was written to the low part of a register is read there. -/
theorem State.read_write (s : State) (w : Width) (r : Fin 16) (value : BitVec w.bits) :
    (s.write w r value).read w r = value := by
  unfold State.write State.read
  dsimp only
  rw [Function.update_self]
  cases w with
  | w16 =>
    show setWidth 16 (s.regs r &&& ~~~0xFFFF ||| setWidth 64 value) = value
    rw [setWidth_or, setWidth_and, setWidth_setWidth_of_le value (by decide : 16 ≤ 64)]
    refine Eq.trans ?_ (setWidth_eq value)
    simp [Width.bits]
  | w32 => exact (setWidth_setWidth_of_le value (by decide : 32 ≤ 64)).trans (setWidth_eq value)
  | w64 => exact (setWidth_setWidth_of_le value le_rfl).trans (setWidth_eq value)

/-- Two address computations that do the same compute the same low bits. -/
theorem lea_injective {address : BitVec 64}
    (h : exec next load s (.lea w dst value) = s.write w dst (address.setWidth w.bits)) :
    (next + value.signExtend 64).setWidth w.bits = address.setWidth w.bits := by
  have hread := congrArg (fun s : State => s.read w dst) h
  rwa [exec, State.read_write, State.read_write] at hread

end

/-! ## Decoding behind prefixes -/

/-- The bytes of prefixes. -/
inductive Prefixed : List Byte → Prefixes → Prop
  | none : Prefixed [] {}
  | rex {byte : Byte} {rex : Rex} : Rex.ofByte byte = some rex → Prefixed [byte] { rex := some rex }
  | opsize : Prefixed [0x66] { opsize := true }
  | both {byte : Byte} {rex : Rex} : Rex.ofByte byte = some rex →
      Prefixed [0x66, byte] { opsize := true, rex := some rex }

/-- A byte that is no prefix. -/
def isOpcode (byte : Byte) : Bool := byte ≠ 0x66 && (Rex.ofByte byte).isNone

/-- As many bytes as there are prefixes. -/
theorem Prefixed.length {pre : List Byte} {p : Prefixes} (h : Prefixed pre p) : pre.length = p.length := by
  cases h <;> rfl

/-- A REX prefix is taken if there is one. -/
theorem takeRex_spec (opsize : Bool) (bytes : List Byte) : (∃ byte rex rest, Rex.ofByte byte = some rex ∧
    bytes = byte :: rest ∧ takeRex opsize bytes = ({ opsize, rex := some rex }, rest)) ∨
    takeRex opsize bytes = ({ opsize }, bytes) := by
  cases bytes with
  | nil => exact Or.inr rfl
  | cons byte rest =>
    cases h : Rex.ofByte byte with
    | none => exact Or.inr (by rw [takeRex, h])
    | some rex => exact Or.inl ⟨byte, rex, rest, h, rfl, by rw [takeRex, h]⟩

/-- The bytes are those of the prefixes and the rest. -/
theorem takePrefixes_spec (bytes : List Byte) :
    ∃ pre, Prefixed pre (takePrefixes bytes).1 ∧ bytes = pre ++ (takePrefixes bytes).2 := by
  cases bytes with
  | nil => exact ⟨[], .none, rfl⟩
  | cons byte bytes =>
    rw [takePrefixes]
    split
    · rename_i hbyte
      subst hbyte
      rcases takeRex_spec true bytes with ⟨byte', rex, rest, hrex, rfl, htake⟩ | htake
      · rw [htake]
        exact ⟨[0x66, byte'], .both hrex, rfl⟩
      · rw [htake]
        exact ⟨[0x66], .opsize, rfl⟩
    · rcases takeRex_spec false (byte :: bytes) with ⟨byte', rex, rest, hrex, heq, htake⟩ | htake
      · rw [htake]
        exact ⟨[byte'], .rex hrex, heq⟩
      · rw [htake]
        exact ⟨[], .none, rfl⟩

theorem rex_ne_opsize {byte : Byte} {rex : Rex} (h : Rex.ofByte byte = some rex) : byte ≠ 0x66 := by
  rintro rfl
  cases h

/-- The prefixes before an opcode are taken. -/
theorem takePrefixes_prefixed {pre : List Byte} {p : Prefixes} (h : Prefixed pre p) {opcode : Byte}
    (hopcode : isOpcode opcode = true) (rest : List Byte) :
    takePrefixes (pre ++ opcode :: rest) = (p, opcode :: rest) := by
  obtain ⟨hne, hnone⟩ := Bool.and_eq_true_iff.mp hopcode
  have hne : opcode ≠ 0x66 := of_decide_eq_true hne
  have hnone : Rex.ofByte opcode = none := isNone_iff_eq_none.mp hnone
  cases h with
  | none =>
    rw [nil_append, takePrefixes, if_neg hne, takeRex, hnone]
  | rex hrex =>
    rw [singleton_append, takePrefixes, if_neg (rex_ne_opsize hrex), takeRex, hrex]
  | opsize =>
    rw [singleton_append, takePrefixes, if_pos rfl, takeRex, hnone]
  | both hrex =>
    rw [List.cons_append, singleton_append, takePrefixes, if_pos rfl, takeRex, hrex]

/-- An instruction behind prefixes is decoded as its opcode says. -/
theorem decode_prefixed {pre : List Byte} {p : Prefixes} (h : Prefixed pre p) {opcode : Byte}
    (hopcode : isOpcode opcode = true) (rest : List Byte) :
    decode (pre ++ opcode :: rest) =
      (decodeOpcode p (opcode :: rest)).map fun (insn, length) => (insn, p.length + length) := by
  rw [decode, takePrefixes_prefixed h hopcode]

/-- The opcodes of loads, and which instruction each is. -/
inductive LoadOpcode (p : Prefixes) (modrm : Byte) (disp : BitVec 32) : Byte → Insn → Prop
  | mov : LoadOpcode p modrm disp 0x8B (.mov p.width (p.reg modrm) disp)
  | test : LoadOpcode p modrm disp 0x85 (.test p.width (p.reg modrm) (.ripMem disp))
  | alu {opcode : Byte} {op : AluOp} : AluOp.ofOpcode opcode = some op →
      LoadOpcode p modrm disp opcode (.alu op p.width (p.reg modrm) (.ripMem disp))

/-- A load is prefixes, an opcode, a ModRM byte and a displacement. -/
theorem decode_load {bytes : List Byte} {insn : Insn} {length : ℕ} (h : decode bytes = some (insn, length))
    (hload : insn.isLoad = true) :
    ∃ pre p opcode modrm field rest, Prefixed pre p ∧ bytes = pre ++ opcode :: modrm :: (field ++ rest) ∧
      field.length = 4 ∧ modrm &&& 0xC7 = 0x05 ∧ LoadOpcode p modrm (word32 field) opcode insn ∧
      length = pre.length + 6 := by
  obtain ⟨pre, hpre, hbytes⟩ := takePrefixes_spec bytes
  have hopcode : (decodeOpcode (takePrefixes bytes).1 (takePrefixes bytes).2).map
      (fun x => (x.1, (takePrefixes bytes).1.length + x.2)) = some (insn, length) := h
  obtain ⟨⟨insn', length'⟩, hdecode, heq⟩ := map_eq_some_iff.mp hopcode
  obtain ⟨rfl, rfl⟩ := Prod.mk.inj heq
  clear hopcode heq
  generalize takePrefixes bytes = taken at *
  obtain ⟨p, tail⟩ := taken
  dsimp only at *
  -- of the opcodes decoded only one with a memory operand is a load
  unfold decodeOpcode at hdecode
  split at hdecode
  · rename_i opcode modrm rest
    split at hdecode
    · rename_i hmodrm
      obtain ⟨hlength, hdecode⟩ := ite_none_left_eq_some.mp hdecode
      have hfield : (rest.take 4).length = 4 := length_take_of_le (not_lt.mp hlength)
      refine ⟨pre, p, opcode, modrm, rest.take 4, rest.drop 4, hpre, ?_, hfield, hmodrm, ?_⟩
      · rw [take_append_drop]
        exact hbytes
      · rw [hpre.length]
        split at hdecode
        · rename_i hopcode
          obtain ⟨rfl, rfl⟩ := Prod.mk.inj (some.inj hdecode)
          exact ⟨hopcode ▸ .mov, rfl⟩
        · split at hdecode
          · obtain ⟨rfl, rfl⟩ := Prod.mk.inj (some.inj hdecode)
            cases hload
          · split at hdecode
            · rename_i hopcode
              obtain ⟨rfl, rfl⟩ := Prod.mk.inj (some.inj hdecode)
              exact ⟨hopcode ▸ .test, rfl⟩
            · obtain ⟨op, hop, hdecode⟩ := map_eq_some_iff.mp hdecode
              obtain ⟨rfl, rfl⟩ := Prod.mk.inj hdecode
              exact ⟨.alu hop, rfl⟩
    · obtain ⟨-, hdecode⟩ := ite_none_right_eq_some.mp hdecode
      obtain ⟨value, -, hdecode⟩ := bind_eq_some_iff.mp hdecode
      split at hdecode
      · obtain ⟨rfl, rfl⟩ := Prod.mk.inj (some.inj hdecode)
        cases hload
      · obtain ⟨-, hdecode⟩ := ite_none_right_eq_some.mp hdecode
        obtain ⟨rfl, rfl⟩ := Prod.mk.inj (some.inj hdecode)
        cases hload
  · cases hdecode

section

variable {pre field rest : List Byte} {p : Prefixes} {modrm : Byte}

theorem take_field (hfield : field.length = 4) : (field ++ rest).take 4 = field := by
  rw [← hfield, take_left]

/-- An address relative to the instruction is decoded. -/
theorem decode_lea (h : Prefixed pre p) (hfield : field.length = 4) (hmodrm : modrm &&& 0xC7 = 0x05) :
    decode (pre ++ 0x8D :: modrm :: (field ++ rest)) =
      some (.lea p.width (p.reg modrm) (word32 field), pre.length + 6) := by
  have hlength : ¬ (field ++ rest).length < 4 := by
    rw [length_append]
    omega
  rw [decode_prefixed h (by decide), decodeOpcode, if_pos hmodrm, if_neg hlength]
  rw [if_neg (by decide), if_pos rfl, take_field hfield, map_some, h.length]

/-- An immediate takes four bytes unless the operands are of 16 bits. -/
theorem immediate_field {w : Width} (rest : List Byte) (hw : w ≠ .w16) (hfield : field.length = 4) :
    immediate w (field ++ rest) = some (word32 field) ∧ w.immediateLength = 4 := by
  have hlength : ¬ (field ++ rest).length < 4 := by
    rw [length_append]
    omega
  cases w with
  | w16 => exact absurd rfl hw
  | w32 =>
    refine ⟨?_, rfl⟩
    rw [immediate, Width.immediateLength, if_neg hlength, take_field hfield]
  | w64 =>
    refine ⟨?_, rfl⟩
    rw [immediate, Width.immediateLength, if_neg hlength, take_field hfield]

/-- A register operand is no memory operand. -/
theorem modrm_direct (h : modrm &&& 0xC0 = 0xC0) : modrm &&& 0xC7 ≠ 0x05 := by
  intro h5
  have hmask : modrm &&& 0xC7 &&& 0xC0 = 0x05 &&& 0xC0 := by rw [h5]
  rw [BitVec.and_assoc] at hmask
  exact absurd (h.symm.trans hmask) (by decide)

/-- An operation with an immediate operand takes as many bytes as its immediate. -/
theorem decode_imm (h : Prefixed pre p) {opcode : Byte} (hopcode : opcode = 0x81 ∨ opcode = 0xF7)
    (hmodrm : modrm &&& 0xC0 = 0xC0) {insn : Insn} {length : ℕ} {bytes : List Byte}
    (hdecode : decode (pre ++ opcode :: modrm :: bytes) = some (insn, length)) :
    length = pre.length + 2 + p.width.immediateLength := by
  have hok : isOpcode opcode = true := by
    rcases hopcode with rfl | rfl <;> decide
  rw [decode_prefixed h hok, decodeOpcode, if_neg (modrm_direct hmodrm), if_pos hmodrm] at hdecode
  obtain ⟨⟨insn', length'⟩, himm, heq⟩ := map_eq_some_iff.mp hdecode
  cases heq
  obtain ⟨value, -, himm⟩ := bind_eq_some_iff.mp himm
  rw [h.length, Nat.add_assoc]
  split at himm
  · rw [(Prod.mk.inj (some.inj himm)).2]
  · obtain ⟨-, himm⟩ := ite_none_right_eq_some.mp himm
    rw [(Prod.mk.inj (some.inj himm)).2]

/-- An operation on a register and an immediate is decoded. -/
theorem decode_alu_imm (h : Prefixed pre p) (hw : p.width ≠ .w16) (hfield : field.length = 4)
    (hmodrm : modrm &&& 0xC0 = 0xC0) :
    decode (pre ++ 0x81 :: modrm :: (field ++ rest)) =
      some (.alu (AluOp.ofModrm modrm) p.width (p.rm modrm) (.imm (word32 field)), pre.length + 6) := by
  obtain ⟨hvalue, hlength⟩ := immediate_field rest hw hfield
  rw [decode_prefixed h (by decide), decodeOpcode, if_neg (modrm_direct hmodrm), if_pos hmodrm, hvalue, bind_some, if_pos rfl,
    hlength, map_some, h.length]

/-- A test of a register and an immediate is decoded. -/
theorem decode_test_imm (h : Prefixed pre p) (hw : p.width ≠ .w16) (hfield : field.length = 4)
    (hmodrm : modrm &&& 0xC0 = 0xC0) (hzero : (modrm >>> 3).toNat % 8 = 0) :
    decode (pre ++ 0xF7 :: modrm :: (field ++ rest)) =
      some (.test p.width (p.rm modrm) (.imm (word32 field)), pre.length + 6) := by
  obtain ⟨hvalue, hlength⟩ := immediate_field rest hw hfield
  rw [decode_prefixed h (by decide), decodeOpcode, if_neg (modrm_direct hmodrm), if_pos hmodrm, hvalue, bind_some,
    if_neg (by decide), if_pos ⟨rfl, hzero⟩, hlength, map_some, h.length]

end

end Mettle.X86

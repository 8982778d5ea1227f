import Mathlib

/-!
# Machine descriptions

A program can describe a machine by rows of instructions, each with an encoding of fixed bytes and operand slots
(`semantic/machine_desc.c`). The description is read and checked, lines of assembly are turned into bytes by it,
and bytes are decoded by the fixed bytes an instruction starts with. A text is a list of characters, one for each
byte of the C string.
-/

namespace Mettle.Semantic.Machine

/-- `MACHINE_MAX_INSNS`. -/
def maxInsns : ℕ := 128

/-- `MACHINE_MAX_BYTES`. -/
def maxBytes : ℕ := 32

/-- `MACHINE_OPERANDS`. -/
abbrev operandCount : ℕ := 3

abbrev Text := List Char

/-! ## What is read -/

/-- The literals that a row is made of. -/
inductive Literal where
  | string (value : Text)
  | number (value : ℤ) (isFloat : Bool)
  | other
  deriving DecidableEq

/-- A row: the named fields of a struct literal, or something else. -/
inductive Row where
  | struct (fields : List (Option String × Literal))
  | other
  deriving DecidableEq

/-- A declaration of the program, as the reader looks at it. -/
inductive Declaration where
  | function (name : Text) (parameterCount : ℕ)
  /-- The rows are there when the initializer is an array literal. -/
  | variable (typeName : Option Text) (name : Option Text) (isConst : Bool) (rows : Option (List Row))
  | other
  deriving DecidableEq

/-- One byte of an encoding: `slot` is -1 for a fixed byte. -/
inductive Cell where
  | fixed (byte : BitVec 8)
  | slot (which : Fin operandCount)
  deriving DecidableEq, Repr

def Cell.isFixed : Cell → Bool
  | .fixed _ => true
  | .slot _ => false

/-- `MachineInsn`; the cells are `bytes` and `slot` up to `length`. -/
structure MachineInsn where
  name : Text := []
  semantics : Text := []
  reads : Text := []
  writes : Text := []
  operands : ℤ := -1
  cells : List Cell := []
  deriving DecidableEq

namespace MachineInsn

/-- `length`. -/
def length (insn : MachineInsn) : ℕ := insn.cells.length

/-- `prefix`: how many bytes the encoding has before its first slot. -/
def prefixLength (insn : MachineInsn) : ℕ := (insn.cells.takeWhile Cell.isFixed).length

/-- `bytes`, where a slot has zero. -/
def bytes (insn : MachineInsn) : List (BitVec 8) :=
  insn.cells.map fun
    | .fixed byte => byte
    | .slot _ => 0

end MachineInsn

/-- `MachineDesc`. -/
structure MachineDesc where
  name : Text
  insns : List MachineInsn
  deriving DecidableEq

/-! ## Reading a description -/

/-- `copy_field`, into a buffer of 64 bytes. -/
def copyField : Literal → Option Text
  | .string text => if 64 < text.length + 1 then none else some text
  | _ => none

/-- `int_of`. -/
def intOf : Literal → Option ℤ
  | .number value false => some value
  | _ => none

/-- `hex_digit`. -/
def hexDigit (c : Char) : Option ℕ :=
  if '0' ≤ c ∧ c ≤ '9' then some (c.toNat - '0'.toNat)
  else if 'a' ≤ c ∧ c ≤ 'f' then some (c.toNat - 'a'.toNat + 10)
  else if 'A' ≤ c ∧ c ≤ 'F' then some (c.toNat - 'A'.toNat + 10)
  else none

/-- The slot that a character names. -/
def slotDigit (c : Char) : Option (Fin operandCount) :=
  if c = '0' then some 0 else if c = '1' then some 1 else if c = '2' then some 2 else none

/-- The loop of `parse_encoding`, after `done` bytes. -/
def parseCells (done : ℕ) : Text → Option (List Cell)
  | [] => some []
  | ' ' :: text => parseCells done text
  | '%' :: text =>
    if maxBytes ≤ done then none
    else
      match text with
      | [] => none
      | c :: text => (slotDigit c).bind fun which => (parseCells (done + 1) text).map (.slot which :: ·)
  | c :: text =>
    if maxBytes ≤ done then none
    else
      match text with
      | [] => none
      | c' :: text =>
        (hexDigit c).bind fun high => (hexDigit c').bind fun low =>
          (parseCells (done + 1) text).map (.fixed (BitVec.ofNat 8 (high * 16 + low)) :: ·)

/-- `parse_encoding`. -/
def parseEncoding (insn : MachineInsn) (text : Text) : Option MachineInsn :=
  (parseCells 0 text).bind fun cells =>
    let insn := { insn with cells }
    if insn.length = 0 ∨ insn.prefixLength = 0 then none else some insn

/-- `seen`. -/
def MachineInsn.seen (insn : MachineInsn) (which : Fin operandCount) : Bool := decide (.slot which ∈ insn.cells)

/-- `check_slots`. -/
def checkSlots (insn : MachineInsn) : Bool :=
  let used := ((List.finRange operandCount).filter insn.seen).length
  decide ((used : ℤ) = insn.operands) &&
    (List.finRange operandCount).all fun which => decide (insn.operands ≤ which) || insn.seen which

/-- `check_uses`. -/
def checkUses (insn : MachineInsn) : Text → Bool
  | [] => true
  | '%' :: [] => false
  | '%' :: c :: list =>
    decide ('0'.toNat ≤ c.toNat ∧ ((c.toNat - '0'.toNat : ℕ) : ℤ) < insn.operands) && checkUses insn list
  | _ :: list => checkUses insn list

/-- One field of a row: into the instruction, or into the encoding. -/
def readField (state : MachineInsn × Option Text) : Option String × Literal → Option (MachineInsn × Option Text)
  | (some "name", value) => (copyField value).map fun name => ({ state.1 with name }, state.2)
  | (some "semantics", value) => (copyField value).map fun semantics => ({ state.1 with semantics }, state.2)
  | (some "reads", value) => (copyField value).map fun reads => ({ state.1 with reads }, state.2)
  | (some "writes", value) => (copyField value).map fun writes => ({ state.1 with writes }, state.2)
  | (some "operands", value) => (intOf value).map fun operands => ({ state.1 with operands }, state.2)
  | (some "encoding", .string text) => some (state.1, some text)
  | (some "encoding", _) => none
  | _ => some state

/-- `read_row`. -/
def readRow : Row → Option MachineInsn
  | .other => none
  | .struct fields =>
    (fields.foldlM readField ({}, none)).bind fun (insn, encoding) =>
      encoding.bind fun text =>
        if insn.name = [] ∨ insn.semantics = [] ∨ insn.operands < 0 ∨ (operandCount : ℤ) < insn.operands then none
        else
          (parseEncoding insn text).bind fun insn =>
            if checkSlots insn && checkUses insn insn.reads && checkUses insn insn.writes then some insn else none

/-- `names_machine`. -/
def namesMachine (typeName : Option Text) : Bool :=
  match typeName with
  | none => false
  | some name =>
    let name := name.takeWhile (· ≠ '[')
    decide (name = "MachineInsn".toList) || decide (12 < name.length ∧ "_MachineInsn".toList <:+ name)

/-- `module_declares_function`: the first function of the name takes the operand slots. -/
def moduleDeclaresFunction (program : List Declaration) (name : Text) : Bool :=
  match program.findSome? fun
    | .function name' parameterCount => if name' = name then some parameterCount else none
    | _ => none with
  | some parameterCount => decide (parameterCount = operandCount)
  | none => false

/-- Two instructions that a decoder cannot tell apart, or that have one name. -/
def clashes (other insn : MachineInsn) : Bool :=
  let shared := min other.prefixLength insn.prefixLength
  decide (other.name = insn.name) || decide (other.bytes.take shared = insn.bytes.take shared)

/-- The loop of `machine_desc_read` over the rows, after the instructions `insns`. -/
def readRows (program : List Declaration) (insns : List MachineInsn) : List Row → Option (List MachineInsn)
  | [] => some insns
  | row :: rows =>
    (readRow row).bind fun insn =>
      if moduleDeclaresFunction program insn.semantics && !insns.any fun other => clashes other insn then
        readRows program (insns ++ [insn]) rows
      else none

/-- `machine_desc_read`. -/
def machineDescRead (program : List Declaration) : Option MachineDesc :=
  match program.filter fun
    | .variable typeName _ _ _ => namesMachine typeName
    | _ => false with
  | [.variable _ name true (some rows)] =>
    if rows = [] ∨ maxInsns < rows.length then none
    else (readRows program [] rows).map fun insns => { name := (name.getD "?".toList).take 63, insns }
  | _ => none

/-! ## Assembling -/

/-- `machine_desc_find`. -/
def MachineDesc.find (desc : MachineDesc) (name : Text) : Option MachineInsn :=
  desc.insns.find? fun insn => insn.name = name

/-! ### Numbers

The compiler is built with the `strtoll` of `runtime/freestanding.c`, which `host_redirect.h` puts in the place of the
library's: it wraps at 64 bits, and a sign or a `0x` without a digit after it is a zero. -/

/-- The white space that `strtoll` and `strtoull` skip. -/
def isBlank (c : Char) : Bool := c = ' ' ∨ c = '\t' ∨ c = '\r' ∨ c = '\n'

/-- `mt_digit_value`. -/
def mtDigitValue (c : Char) : Option ℕ :=
  if '0' ≤ c ∧ c ≤ '9' then some (c.toNat - '0'.toNat)
  else if 'a' ≤ c ∧ c ≤ 'z' then some (c.toNat - 'a'.toNat + 10)
  else if 'A' ≤ c ∧ c ≤ 'Z' then some (c.toNat - 'A'.toNat + 10)
  else none

/-- The value of a digit of a base. -/
def digitOf (base : ℕ) (c : Char) : Option ℕ := (mtDigitValue c).filter (· < base)

/-- The digits at the start of a text, the number they add to in 64 bits, and what follows them. -/
def takeDigits (base : ℕ) : BitVec 64 → Text → BitVec 64 × Text
  | value, [] => (value, [])
  | value, c :: text =>
    match digitOf base c with
    | some digit => takeDigits base (value * BitVec.ofNat 64 base + BitVec.ofNat 64 digit) text
    | none => (value, c :: text)

/-- The base that `strtoull` goes by, and the text of the digits: a `0x` is dropped, whatever follows it. -/
def numberBase (base : ℕ) : Text → ℕ × Text
  | '0' :: x :: text =>
    if (base = 0 ∨ base = 16) ∧ (x = 'x' ∨ x = 'X') then (16, text) else (if base = 0 then 8 else base, '0' :: x :: text)
  | '0' :: text => (if base = 0 then 8 else base, '0' :: text)
  | text => (if base = 0 then 10 else base, text)

/-- `strtoull`: the value, and where it stops. -/
def strtoull (text : Text) (base : ℕ) : BitVec 64 × Text :=
  let text := text.dropWhile isBlank
  let text :=
    match text with
    | '+' :: text => text
    | _ => text
  let (base, digits) := numberBase base text
  takeDigits base 0 digits

/-- `strtoll`: the value, and where it stops. -/
def strtoll (text : Text) (base : ℕ) : ℤ × Text :=
  let text := text.dropWhile isBlank
  let (negative, text) :=
    match text with
    | '-' :: text => (true, text)
    | '+' :: text => (false, text)
    | _ => (false, text)
  let (value, stop) := strtoull text base
  ((if negative then -value else value).toInt, stop)

example : strtoll "18446744073709551623".toList 0 = (7, []) ∧ strtoll "-".toList 0 = (0, []) ∧
    strtoll "0x,1".toList 0 = (0, ",1".toList) ∧ strtoll "- +0x1F".toList 0 = (-31, []) := by decide

/-! ### Lines -/

/-- The operand loop of `machine_assemble`, when `room` more operands are accepted. -/
def readOperands : ℕ → Text → Option (List ℤ)
  | room, line =>
    match line.dropWhile fun c => c = ' ' ∨ c = ',' with
    | [] => some []
    | c :: rest =>
      let (value, stop) := strtoll (c :: rest) 0
      if stop = c :: rest then none
      else
        match room with
        | 0 => none
        | room + 1 => (readOperands room stop).map (value :: ·)

/-- What a line says: an instruction and the values of its operand slots, where a slot that is not given has
zero. A line without a mnemonic says nothing. -/
def MachineDesc.readLine (desc : MachineDesc) (line : Text) :
    Option (Option (MachineInsn × (Fin operandCount → ℤ))) :=
  let line := line.dropWhile (· = ' ')
  let mnemonic := (line.takeWhile (· ≠ ' ')).take 63
  if mnemonic = [] then some none
  else
    (desc.find mnemonic).bind fun insn =>
      (readOperands operandCount (line.drop mnemonic.length)).bind fun given =>
        if (given.length : ℤ) ≠ insn.operands then none else some (some (insn, fun which => given.getD which 0))

/-- One byte of an instruction. -/
def Cell.encode (operands : Fin operandCount → ℤ) : Cell → Option (BitVec 8)
  | .fixed byte => some byte
  | .slot which =>
    if operands which < 0 ∨ 255 < operands which then none else some (BitVec.ofInt 8 (operands which))

/-- The bytes of an instruction. -/
def MachineInsn.encode (insn : MachineInsn) (operands : Fin operandCount → ℤ) : Option (List (BitVec 8)) :=
  insn.cells.mapM (Cell.encode operands)

/-- `machine_assemble`: the bytes it writes. -/
def machineAssemble (desc : MachineDesc) (line : Text) (capacity : ℕ) : Option (List (BitVec 8)) :=
  (desc.readLine line).bind fun
    | none => some []
    | some (insn, operands) => if capacity < insn.length then none else insn.encode operands

/-! ## Decoding -/

/-- The instruction starts with these bytes, and fits. -/
def MachineInsn.startsAt (insn : MachineInsn) (bytes : List (BitVec 8)) (at_ : ℕ) : Bool :=
  decide (at_ + insn.length ≤ bytes.length ∧
    (bytes.drop at_).take insn.prefixLength = insn.bytes.take insn.prefixLength)

/-- The operand slots that the bytes of an instruction fill: a later byte of a slot replaces an earlier one. -/
def readSlots (operands : Fin operandCount → ℤ) : List Cell → List (BitVec 8) → Fin operandCount → ℤ
  | .slot which :: cells, byte :: bytes =>
    readSlots (Function.update operands which (byte.toNat : ℤ)) cells bytes
  | .fixed _ :: cells, _ :: bytes => readSlots operands cells bytes
  | _, _ => operands

/-- `machine_decode`: the instruction, its operands and how many bytes it takes. -/
def machineDecode (desc : MachineDesc) (bytes : List (BitVec 8)) (at_ : ℕ) :
    Option (MachineInsn × (Fin operandCount → ℤ) × ℕ) :=
  (desc.insns.find? fun insn => insn.startsAt bytes at_).map fun insn =>
    (insn, readSlots (fun _ => 0) insn.cells (bytes.drop at_), insn.length)

/-- The bytes decoded one instruction after the other, until their end. -/
def decodeFrom (desc : MachineDesc) (bytes : List (BitVec 8)) :
    ℕ → ℕ → Option (List (MachineInsn × (Fin operandCount → ℤ)))
  | steps, at_ =>
    if bytes.length ≤ at_ then some []
    else
      match steps with
      | 0 => none
      | steps + 1 =>
        (machineDecode desc bytes at_).bind fun (insn, operands, consumed) =>
          (decodeFrom desc bytes steps (at_ + consumed)).map ((insn, operands) :: ·)

end Mettle.Semantic.Machine

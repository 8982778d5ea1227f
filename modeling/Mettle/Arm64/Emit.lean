import Mettle.Arm64.DecodeReads
import Mettle.Lib.Bytes

/-!
# The AArch64 emitter

`codegen/binary/arm64_emit.c`: a code buffer with labels and the branches still to be given their offsets.
-/

namespace Mettle.Arm64

open Mettle.Bytes

/-- `Arm64FixKind`. -/
inductive FixKind where
  | b26
  | imm19
  | abs64Mov
  deriving DecidableEq, Repr

/-- `Arm64Fixup`; `site` is its `at`. -/
structure Fixup where
  site : ℕ
  label : ℤ
  kind : FixKind
  deriving DecidableEq, Repr

/-- An entry of `label_off` and `label_bound`. -/
structure Label where
  off : ℕ
  bound : Bool
  deriving DecidableEq, Repr

/-- `Arm64Emit`. -/
structure Emit where
  code : List (BitVec 8)
  labels : List Label
  fixups : List Fixup
  error : Bool
  codeVaddr : BitVec 64

namespace Emit

/-- `arm64_emit_init`. -/
def init : Emit := ⟨[], [], [], false, 0⟩

/-- `arm64_fail`, less the text. -/
def fail (e : Emit) : Bool × Emit := (false, { e with error := true })

/-- C's `&&` between two emissions. -/
def andThen (r : Bool × Emit) (next : Emit → Bool × Emit) : Bool × Emit := if r.1 then next r.2 else r

/-- `arm64_emit_word`. -/
def emitWord (e : Emit) (word : BitVec 32) : Bool × Emit :=
  if e.error then e.fail else (true, { e with code := e.code ++ leBytes 4 word.toNat })

/-- `arm64_emit_bytes`. -/
def emitBytes (e : Emit) (data : List (BitVec 8)) : Bool × Emit :=
  let pad := (4 - data.length % 4) % 4
  if e.error then e.fail else (true, { e with code := e.code ++ data ++ List.replicate pad 0 })

/-- `arm64_new_label`. -/
def newLabel (e : Emit) : ℤ × Emit :=
  if e.error then (-1, e) else (e.labels.length, { e with labels := e.labels ++ [⟨0, false⟩] })

/-- `arm64_bind_label`. -/
def bindLabel (e : Emit) (label : ℤ) : Emit :=
  if e.error ∨ label < 0 ∨ e.labels.length ≤ label then e.fail.2
  else { e with labels := e.labels.set label.toNat ⟨e.code.length, true⟩ }

/-- `add_fixup`. -/
def addFixup (e : Emit) (site : ℕ) (label : ℤ) (kind : FixKind) : Bool × Emit :=
  (true, { e with fixups := e.fixups ++ [⟨site, label, kind⟩] })

end Emit

/-- The branches to a label. -/
inductive Branch where
  | b
  | bl
  | bcond (cond : ℤ)
  | cbz (is64 : Bool) (rt : ℤ)
  | cbnz (is64 : Bool) (rt : ℤ)
  deriving DecidableEq, Repr

namespace Branch

/-- The branch with an offset. -/
def word : Branch → ℤ → BitVec 32
  | b, offset => Arm64.b offset
  | bl, offset => Arm64.bl offset
  | bcond cond, offset => Arm64.bcond cond offset
  | cbz is64 rt, offset => Arm64.cbz is64 rt offset
  | cbnz is64 rt, offset => Arm64.cbnz is64 rt offset

def kind : Branch → FixKind
  | b | bl => .b26
  | bcond _ | cbz _ _ | cbnz _ _ => .imm19

end Branch

namespace Emit

/-- The emitters of branches: a branch to itself, and a fixup for it. -/
def emitBranch (e : Emit) (branch : Branch) (label : ℤ) : Bool × Emit :=
  andThen (e.emitWord (branch.word 0)) fun e' => e'.addFixup e.code.length label branch.kind

/-- `arm64_emit_b`. -/
def emitB (e : Emit) (label : ℤ) : Bool × Emit := e.emitBranch .b label

/-- `arm64_emit_bl`. -/
def emitBl (e : Emit) (label : ℤ) : Bool × Emit := e.emitBranch .bl label

/-- `arm64_emit_bcond`. -/
def emitBcond (e : Emit) (cond label : ℤ) : Bool × Emit := e.emitBranch (.bcond cond) label

/-- `arm64_emit_cbz`. -/
def emitCbz (e : Emit) (is64 : Bool) (rt label : ℤ) : Bool × Emit := e.emitBranch (.cbz is64 rt) label

/-- `arm64_emit_cbnz`. -/
def emitCbnz (e : Emit) (is64 : Bool) (rt label : ℤ) : Bool × Emit := e.emitBranch (.cbnz is64 rt) label

/-- `arm64_emit_label_address`. -/
def emitLabelAddress (e : Emit) (rd label : ℤ) : Bool × Emit :=
  if e.codeVaddr = 0 then e.fail
  else
    andThen (e.emitWord (movz true rd 0 0)) fun e₁ => andThen (e₁.emitWord (movk true rd 0 1)) fun e₂ =>
      andThen (e₂.emitWord (movk true rd 0 2)) fun e₃ => andThen (e₃.emitWord (movk true rd 0 3)) fun e₄ =>
        e₄.addFixup e.code.length label .abs64Mov

/-- The offset of a bound label. -/
def target (e : Emit) (label : ℤ) : Option ℕ :=
  if label < 0 then none
  else
    match e.labels[label.toNat]? with
    | some l => if l.bound then some l.off else none
    | none => none

/-- A word with its branch offset replaced, for a displacement in words. -/
def patchBranch : FixKind → BitVec 32 → ℤ → BitVec 32
  | .b26, word, words => (word &&& ~~~0x03FFFFFF) ||| field words 0x03FFFFFF 0
  | _, word, words => (word &&& ~~~((0x7FFFF : BitVec 32) <<< 5)) ||| field words 0x7FFFF 5

/-- The displacements in words that a branch reaches. -/
def reach : FixKind → ℤ
  | .b26 => 2 ^ 25
  | _ => 2 ^ 18

/-- Sixteen bits of an address into one of the four moves. -/
def patchAddress (site : ℕ) (address : BitVec 64) (code : List (BitVec 8)) (part : ℕ) : List (BitVec 8) :=
  let word := load32 code (site + part * 4)
  store32 code (site + part * 4) ((word &&& ~~~((0xFFFF : BitVec 32) <<< 5)) |||
    ((address >>> (16 * part)).setWidth 32 &&& 0xFFFF) <<< 5)

/-- `arm64_emit_finalize`, one fixup. -/
def finalizeFixup (e : Emit) (f : Fixup) : Bool × Emit :=
  match e.target f.label with
  | none => e.fail
  | some off =>
    match f.kind with
    | .abs64Mov =>
      (true, { e with code := (List.range 4).foldl (patchAddress f.site (e.codeVaddr + BitVec.ofNat 64 off)) e.code })
    | kind =>
      let words := ((off : ℤ) - f.site) / 4
      if words < -reach kind ∨ reach kind ≤ words then e.fail
      else (true, { e with code := store32 e.code f.site (patchBranch kind (load32 e.code f.site) words) })

/-- The loop of `arm64_emit_finalize`. -/
def finalizeFrom : List Fixup → Emit → Bool × Emit
  | [], e => (true, e)
  | f :: fs, e => andThen (e.finalizeFixup f) (finalizeFrom fs)

/-- `arm64_emit_finalize`. -/
def finalize (e : Emit) : Bool × Emit := if e.error then (false, e) else finalizeFrom e.fixups e

/-- A call into the emitter before it is finalized. `fail` also stands for an allocation that fails. -/
inductive Op where
  | fail
  | word (w : BitVec 32)
  | bytes (data : List (BitVec 8))
  | newLabel
  | bindLabel (label : ℤ)
  | branch (branch : Branch) (label : ℤ)
  | labelAddress (rd label : ℤ)
  | setVaddr (address : BitVec 64)

/-- What a call leaves of the emitter. -/
def step (e : Emit) : Op → Emit
  | .fail => e.fail.2
  | .word w => (e.emitWord w).2
  | .bytes data => (e.emitBytes data).2
  | .newLabel => e.newLabel.2
  | .bindLabel label => e.bindLabel label
  | .branch branch label => (e.emitBranch branch label).2
  | .labelAddress rd label => (e.emitLabelAddress rd label).2
  | .setVaddr address => { e with codeVaddr := address }

/-- The emitter after a series of calls. -/
def run (ops : List Op) : Emit := ops.foldl step init

end Emit

end Mettle.Arm64

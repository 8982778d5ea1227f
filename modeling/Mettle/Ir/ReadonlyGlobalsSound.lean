import Mettle.Ir.ReadonlyGlobals
import Mettle.Ir.Scopes

/-!
# When folding read-only globals is sound

A folded global has to be one that no instruction of the program writes, in any way in which an opcode writes, and every
read that is replaced has to give the value it is replaced by. The pass does not look at the operands that an opcode both
reads and writes, and not at locals that are declared without the name of a type; without these it is sound.
-/

open List
open Option hiding or_assoc

namespace Mettle.Ir

/-- The operands in which the pass replaces symbols. -/
def Inst.foldedOperands (i : Inst) : List Operand := i.lhs :: i.rhs :: i.arguments

/-- An operand that names a symbol. -/
def Operand.names (o : Operand) (g : String) : Bool := o.kind = .symbol ∧ o.name = some g

/-- In function `k` the pass replaces operand `m` of instruction `j`, which names a global, by an integer. -/
def ReplacedAt (consts : List GlobalIntConst) (functions : List Function) (k j m : ℕ) (g : String) (v : BitVec 64) : Prop :=
  ∃ fn i o fn' i', functions[k]? = some fn ∧ fn.instructions[j]? = some i ∧ i.foldedOperands[m]? = some o ∧
    o.names g = true ∧ (foldReadonlyGlobals consts functions)[k]? = some fn' ∧ fn'.instructions[j]? = some i' ∧
    i'.foldedOperands[m]? = some (.ofInt v)

/-- The globals that are replaced somewhere, with their values. -/
def Replaced (consts : List GlobalIntConst) (functions : List Function) (g : String) (v : BitVec 64) : Prop :=
  ∃ k j m, ReplacedAt consts functions k j m g v

/-- The instruction writes a symbol through one of the operands its opcode writes, binds it in inline assembly, or takes
its address. -/
def Inst.writesGlobal (i : Inst) (g : String) : Prop :=
  (i.op = .addressOf ∧ i.lhs.names g = true) ∨ (i.op = .inlineAsm ∧ inlineAsmBindsSymbol i.text g = true) ∨
    (Inst.opWritesSymbol i.op = true ∧ ∃ o ∈ i.results, o.names g = true)

/-- The symbol is one of the operands that an opcode writes besides its destination. -/
def Inst.writesSource (i : Inst) (g : String) : Bool :=
  (i.op = .rotateAdd ∧ (i.lhs.names g ∨ i.rhs.names g)) ∨ (i.op = .simdMinmaxI32 ∧ (i.arguments.getD 0 {}).names g) ∨
    (i.op = .simdLcgU32 ∧ i.rhs.names g)

/-- The address of a global is taken in a function that has no local of its name. -/
def addressTaken (functions : List Function) (g : String) : Bool :=
  ∃ fn ∈ functions, fn.hasLocal g = false ∧ ∃ i ∈ fn.instructions, i.op = .addressOf ∧ i.lhs.names g = true

/-- No temporary has the name of a global of the table. -/
def TempsApart (consts : List GlobalIntConst) (functions : List Function) : Prop :=
  ∀ fn ∈ functions, ∀ i ∈ fn.instructions, ∀ o ∈ i.results, o.kind = .temp → ∀ g, o.name = some g →
    lookupConst consts g = none

/-- Folding is sound: a replaced global is written nowhere, locals and parameters of its name are left alone, and in
every activation, at any depth of calls, that starts when the replaced globals hold their initial values, they do so at
every instruction and a replaced read gives that value. -/
structure FoldsSoundly (consts : List GlobalIntConst) (functions : List Function) : Prop where
  unwritten : ∀ g v, Replaced consts functions g v → ∀ fn ∈ functions, ∀ i ∈ fn.instructions, i.writesGlobal g →
    fn.hasLocal g = true
  apart : ∀ k j m g v, ReplacedAt consts functions k j m g v → ∀ fn, functions[k]? = some fn → fn.hasLocal g = false
  value : ∀ (W : Type) (S : Scopes W) (H : Host W), S.Lawful H (addressTaken functions) → TempsApart consts functions →
    ∀ (n k : ℕ) (fn : Function) (w : W) (args : List Arg) (s : State W), functions[k]? = some fn →
      S.Holds (Replaced consts functions) w → S.enter w fn args = some s →
      ∀ (t j : ℕ) (s' : State W), stepN (S.host H functions n) fn t (.at 0 s) = some (.at j s') →
        S.Holds (Replaced consts functions) s'.world ∧ ∀ m g v, ReplacedAt consts functions k j m g v →
          s'.fetch (S.host H functions n) (.ofSymbol g) = some (.ofInt v)

/-- A global of the table that the pass takes for read-only. -/
def TakenForReadonly (consts : List GlobalIntConst) (functions : List Function) (g : String) : Prop :=
  lookupConst consts g ≠ none ∧ seenWritten functions g = false

/-- Of the globals that are taken for read-only, none is the operand that an instruction writes besides its destination,
and a function that reads one has no local of its name that is declared without the name of a type. -/
structure Visible (consts : List GlobalIntConst) (functions : List Function) : Prop where
  sources : ∀ fn ∈ functions, ∀ i ∈ fn.instructions, ∀ g, i.writesSource g = true →
    TakenForReadonly consts functions g → fn.hasLocal g = true
  typed : ∀ fn ∈ functions, ∀ i ∈ fn.instructions, ∀ g, i.op ≠ .addressOf → (∃ o ∈ i.foldedOperands, o.names g = true) →
    TakenForReadonly consts functions g → fn.hasLocal g = true → fn.shadows g = true

section

variable {consts : List GlobalIntConst} {functions : List Function} {i : Inst} {g : String} {v : BitVec 64}

variable {o : Operand} {r : String → Option (BitVec 64)} {k j m : ℕ} {fn : Function}

theorem Operand.names_iff : o.names g = true ↔ o.kind = .symbol ∧ o.name = some g := by
  rw [names, decide_eq_true_eq]

/-- An operand that names a global is replaced by the value that is put for it. -/
theorem Operand.replaceReads_eq_ofInt (ho : o.names g = true) : o.replaceReads r = .ofInt v ↔ r g = some v := by
  obtain ⟨hkind, hname⟩ := Operand.names_iff.mp ho
  rw [Operand.replaceReads, if_pos hkind, hname, bind_some]
  cases hr : r g with
  | none =>
    simp only [reduceCtorEq, iff_false]
    intro heq
    rw [heq] at hkind
    cases hkind
  | some u =>
    simp only [Operand.ofInt, Operand.mk.injEq, some.injEq, true_and, and_true]

/-- The operands that are folded are replaced one by one. -/
theorem Inst.foldedOperands_replaceReads (h : i.op ≠ .addressOf) :
    (i.replaceReads r).foldedOperands = i.foldedOperands.map (Operand.replaceReads r) := by
  rw [Inst.replaceReads, if_neg h]
  rfl

/-- What is replaced, by the specification of the pass. -/
theorem replacedAt_iff : ReplacedAt consts functions k j m g v ↔
    ∃ fn i o, functions[k]? = some fn ∧ fn.instructions[j]? = some i ∧ i.foldedOperands[m]? = some o ∧
      o.names g = true ∧ i.op ≠ .addressOf ∧ replacement consts functions fn g = some v := by
  constructor
  · rintro ⟨fn, i, o, fn', i', hfn, hi, ho, hnames, hfn', hi', ho'⟩
    rw [foldReadonlyGlobals_eq, List.getElem?_map, hfn, map_some, some.injEq] at hfn'
    subst hfn'
    rw [List.getElem?_map, hi, map_some, some.injEq] at hi'
    subst hi'
    have hop : i.op ≠ .addressOf := by
      intro hop
      rw [Inst.replaceReads, if_pos hop, ho, some.injEq] at ho'
      rw [ho'] at hnames
      cases hnames
    rw [Inst.foldedOperands_replaceReads hop, List.getElem?_map, ho, map_some, some.injEq,
      Operand.replaceReads_eq_ofInt hnames] at ho'
    exact ⟨fn, i, o, hfn, hi, ho, hnames, hop, ho'⟩
  · rintro ⟨fn, i, o, hfn, hi, ho, hnames, hop, hr⟩
    refine ⟨fn, i, o, { fn with instructions := fn.instructions.map (Inst.replaceReads (replacement consts functions fn)) },
      i.replaceReads (replacement consts functions fn), hfn, hi, ho, hnames, ?_, ?_, ?_⟩
    · rw [foldReadonlyGlobals_eq, List.getElem?_map, hfn, map_some]
    · rw [List.getElem?_map, hi, map_some]
    · rw [Inst.foldedOperands_replaceReads hop, List.getElem?_map, ho, map_some,
        (Operand.replaceReads_eq_ofInt hnames).mpr hr]

/-- What is put for a global: its constant, where it is not shadowed and nowhere seen to be written. -/
theorem replacement_eq_some : replacement consts functions fn g = some v ↔
    fn.shadows g = false ∧ seenWritten functions g = false ∧ lookupConst consts g = some v := by
  rw [replacement, ite_none_left_eq_some, not_or, Bool.not_eq_true, Bool.not_eq_true, and_assoc]

/-- Most opcodes that write have one result. -/
theorem Inst.results_of_writes (h : Inst.opWritesSymbol i.op = true) (hrotate : i.op ≠ .rotateAdd)
    (hminmax : i.op ≠ .simdMinmaxI32) (hlcg : i.op ≠ .simdLcgU32) : i.results = [i.dest] := by
  unfold Inst.results
  generalize i.op = op at h hrotate hminmax hlcg ⊢
  cases op <;> first
    | rfl
    | (cases h; done)
    | contradiction

/-- What an opcode writes, it writes where the pass looks or through a source operand. -/
theorem Inst.writesGlobal_iff : i.writesGlobal g ↔ i.seenToWrite g = true ∨ i.writesSource g = true := by
  have hdest : (∃ o ∈ i.results, o.names g = true) ∧ Inst.opWritesSymbol i.op = true ↔
      (i.dest.names g = true ∧ Inst.opWritesSymbol i.op = true) ∨ i.writesSource g = true := by
    rw [Inst.writesSource, decide_eq_true_eq]
    by_cases hrotate : i.op = .rotateAdd
    · simp [Inst.results, hrotate, Inst.opWritesSymbol]
    by_cases hminmax : i.op = .simdMinmaxI32
    · simp [Inst.results, hminmax, Inst.opWritesSymbol]
    by_cases hlcg : i.op = .simdLcgU32
    · simp [Inst.results, hlcg, Inst.opWritesSymbol]
    by_cases hop : Inst.opWritesSymbol i.op = true
    · simp [Inst.results_of_writes hop hrotate hminmax hlcg, hrotate, hminmax, hlcg, hop]
    · simp [hrotate, hminmax, hlcg, hop]
  have hseen : i.seenToWrite g = true ↔ (i.op = .addressOf ∧ i.lhs.names g = true) ∨
      (i.dest.names g = true ∧ Inst.opWritesSymbol i.op = true) ∨
      (i.op = .inlineAsm ∧ inlineAsmBindsSymbol i.text g = true) := by
    rw [Inst.seenToWrite, decide_eq_true_eq, Operand.names_iff, Operand.names_iff]
    apply or_congr Iff.rfl
    apply or_congr_left
    simp only [Inst.writesDestination, Operand.isSymbol, decide_eq_true_eq]
    constructor
    · rintro ⟨⟨-, hop⟩, ⟨hkind, -⟩, hname⟩
      exact ⟨⟨hkind, hname⟩, hop⟩
    · rintro ⟨⟨hkind, hname⟩, hop⟩
      exact ⟨⟨by rw [hkind]; decide, hop⟩, ⟨hkind, by rw [hname]; rfl⟩, hname⟩
  rw [Inst.writesGlobal, and_comm (a := Inst.opWritesSymbol i.op = true), hdest, hseen, or_assoc, or_assoc,
    or_left_comm (a := i.op = .inlineAsm ∧ _)]

/-- A local that shadows is a local. -/
theorem Function.hasLocal_of_shadows (h : fn.shadows g = true) : fn.hasLocal g = true := by
  rw [Function.shadows, decide_eq_true_eq] at h
  rw [Function.hasLocal, decide_eq_true_eq]
  apply h.imp_right
  rintro ⟨i, hi, hop, hsymbol, -, hname⟩
  rw [Operand.isSymbol, decide_eq_true_eq] at hsymbol
  exact ⟨i, hi, hop, hsymbol.1, hname⟩

/-- What an instruction writes through a source operand is among the operands in which symbols are replaced. -/
theorem Inst.writesSource_folded (h : i.writesSource g = true) :
    i.op ≠ .addressOf ∧ ∃ o ∈ i.foldedOperands, o.names g = true := by
  have harg (hnames : (i.arguments.getD 0 {}).names g = true) : i.arguments.getD 0 {} ∈ i.arguments := by
    cases harguments : i.arguments with
    | nil =>
      rw [harguments] at hnames
      cases hnames
    | cons a rest => exact .head _
  rw [Inst.writesSource, decide_eq_true_eq] at h
  rcases h with ⟨hop, hnames | hnames⟩ | ⟨hop, hnames⟩ | ⟨hop, hnames⟩
  · exact ⟨by rw [hop]; decide, _, mem_cons_self, hnames⟩
  · exact ⟨by rw [hop]; decide, _, mem_cons_of_mem _ mem_cons_self, hnames⟩
  · exact ⟨by rw [hop]; decide, _, mem_cons_of_mem _ (.tail _ (harg hnames)), hnames⟩
  · exact ⟨by rw [hop]; decide, _, mem_cons_of_mem _ mem_cons_self, hnames⟩

/-- An operand that names a global taken for read-only is replaced, where the global is not shadowed. -/
theorem exists_replacedAt (hfn : fn ∈ functions) (hi : i ∈ fn.instructions) (hop : i.op ≠ .addressOf)
    (ho : ∃ o ∈ i.foldedOperands, o.names g = true) (hg : TakenForReadonly consts functions g)
    (hshadows : fn.shadows g = false) :
    ∃ k j m v, functions[k]? = some fn ∧ ReplacedAt consts functions k j m g v := by
  obtain ⟨o, ho, hnames⟩ := ho
  obtain ⟨k, hk⟩ := mem_iff_getElem?.mp hfn
  obtain ⟨j, hj⟩ := mem_iff_getElem?.mp hi
  obtain ⟨m, hm⟩ := mem_iff_getElem?.mp ho
  obtain ⟨v, hv⟩ := ne_none_iff_exists'.mp hg.1
  exact ⟨k, j, m, v, hk, replacedAt_iff.mpr ⟨fn, i, o, hk, hj, hm, hnames, hop,
    replacement_eq_some.mpr ⟨hshadows, hg.2, hv⟩⟩⟩

/-- A replaced global is taken for read-only. -/
theorem Replaced.takenForReadonly (h : Replaced consts functions g v) :
    TakenForReadonly consts functions g ∧ lookupConst consts g = some v := by
  obtain ⟨k, j, m, hat⟩ := h
  obtain ⟨fn, i, o, -, -, -, -, -, hr⟩ := replacedAt_iff.mp hat
  obtain ⟨-, hseen, hlookup⟩ := replacement_eq_some.mp hr
  refine ⟨⟨?_, hseen⟩, hlookup⟩
  rw [hlookup]
  exact some_ne_none v

/-- In a program that shows its writes only shadows of such a global are written. -/
theorem Visible.unwritten (h : Visible consts functions) (hr : Replaced consts functions g v) (hfn : fn ∈ functions)
    (hi : i ∈ fn.instructions) (hwrites : i.writesGlobal g) : fn.hasLocal g = true := by
  obtain ⟨hg, -⟩ := hr.takenForReadonly
  rcases Inst.writesGlobal_iff.mp hwrites with hseen | hsource
  · -- a write that is seen stands in a function that shadows the global
    by_contra hlocal
    have hshadows : fn.shadows g = false := by
      rw [← Bool.not_eq_true]
      exact fun hs => hlocal (Function.hasLocal_of_shadows hs)
    have hwritten : seenWritten functions g = true := by
      rw [seenWritten, decide_eq_true_eq]
      exact ⟨fn, hfn, hshadows, i, hi, hseen⟩
    rw [hg.2] at hwritten
    cases hwritten
  · exact h.sources fn hfn i hi g hsource hg

/-- A function in which it is replaced does not shadow it. -/
theorem Visible.apart (h : Visible consts functions) (hat : ReplacedAt consts functions k j m g v)
    (hk : functions[k]? = some fn) : fn.hasLocal g = false := by
  obtain ⟨hg, -⟩ := Replaced.takenForReadonly ⟨k, j, m, hat⟩
  obtain ⟨fn', i, o, hk', hj, hm, hnames, hop, hr⟩ := replacedAt_iff.mp hat
  obtain rfl : fn' = fn := by
    rw [hk, some.injEq] at hk'
    exact hk'.symm
  by_contra hlocal
  rw [Bool.not_eq_false] at hlocal
  have hshadows := h.typed fn' (mem_of_getElem? hk) i (mem_of_getElem? hj) g hop
    ⟨o, mem_of_getElem? hm, hnames⟩ hg hlocal
  rw [(replacement_eq_some.mp hr).1] at hshadows
  cases hshadows

/-- No instruction reaches a replaced global. -/
theorem Visible.spares (h : Visible consts functions) (htemps : TempsApart consts functions) (hfn : fn ∈ functions)
    (hi : i ∈ fn.instructions) : Scopes.Spares fn i (Replaced consts functions) where
  symbols g v hr o ho hkind hname hop :=
    h.unwritten hr hfn hi (.inr (.inr ⟨hop, o, ho, Operand.names_iff.mpr ⟨hkind, hname⟩⟩))
  temps g v hr o ho hkind hname := by
    have hnone := htemps fn hfn i hi o ho hkind g hname
    rw [hr.takenForReadonly.2] at hnone
    cases hnone

/-- Its address is not taken. -/
theorem Visible.not_addressTaken (h : Visible consts functions) (hr : Replaced consts functions g v) :
    addressTaken functions g = false := by
  rw [addressTaken, decide_eq_false_iff_not]
  rintro ⟨fn, hfn, hlocal, i, hi, hop, hnames⟩
  rw [h.unwritten hr hfn hi (.inl ⟨hop, hnames⟩)] at hlocal
  cases hlocal

end

/-- The pass is sound just when no global that it takes for read-only is written through a source operand, or read in a
function that declares a local of its name without the name of a type. -/
theorem foldReadonlyGlobals_sound_iff (consts : List GlobalIntConst) (functions : List Function) :
    FoldsSoundly consts functions ↔ Visible consts functions := by
  constructor
  · intro hsound
    constructor
    · intro fn hfn i hi g hsource hg
      by_contra hlocal
      obtain ⟨hop, hfolded⟩ := Inst.writesSource_folded hsource
      have hshadows : fn.shadows g = false := by
        rw [← Bool.not_eq_true]
        exact fun hs => hlocal (Function.hasLocal_of_shadows hs)
      obtain ⟨k, j, m, v, -, hat⟩ := exists_replacedAt hfn hi hop hfolded hg hshadows
      exact hlocal (hsound.unwritten g v ⟨k, j, m, hat⟩ fn hfn i hi (Inst.writesGlobal_iff.mpr (.inr hsource)))
    · intro fn hfn i hi g hop hreads hg hlocal
      by_contra hshadows
      rw [Bool.not_eq_true] at hshadows
      obtain ⟨k, j, m, v, hk, hat⟩ := exists_replacedAt hfn hi hop hreads hg hshadows
      rw [hsound.apart k j m g v hat fn hk] at hlocal
      cases hlocal
  · intro h
    refine ⟨fun g v hr fn hfn i hi => h.unwritten hr hfn hi, fun k j m g v hat fn hk => h.apart hat hk, ?_⟩
    intro W S H hlaw htemps n k fn w args s hk hholds henter t j s' hrun
    -- a global that is folded is neither written nor has its address taken
    have htaken : ∀ g v, Replaced consts functions g v → addressTaken functions g = false :=
      fun g v hr => h.not_addressTaken hr
    have hspares : ∀ fn ∈ functions, ∀ i ∈ fn.instructions, Scopes.Spares fn i (Replaced consts functions) :=
      fun fn hfn i hi => h.spares htemps hfn hi
    have hcalls := Scopes.host_keepsCalls hlaw htaken hspares n
    have hsettled := Scopes.settled_run hlaw hcalls htaken (hspares fn (List.mem_of_getElem? hk))
      (Scopes.settled_enter hlaw hholds henter) hrun
    rcases hsettled with ⟨pc, s₁, heq, hs⟩ | ⟨v, s₁, heq, -⟩
    · obtain ⟨rfl, rfl⟩ := (Config.at.injEq ..).mp heq
      refine ⟨hs.holds, ?_⟩
      intro m g v hat
      exact hs.fetch hlaw hcalls ⟨k, j, m, hat⟩ (h.apart hat hk)
    · cases heq

/-! ## A global written through a source operand -/

/-- `n := g + h; g := h; h := n` as one instruction. -/
def rotatesGlobal : Function where
  instructions := [{ op := .rotateAdd, dest := .ofSymbol "n", lhs := .ofSymbol "g", rhs := .ofSymbol "h" }]

/-- The pass folds a global that the instruction writes. -/
theorem rotatesGlobal_folded : ¬ ∀ consts functions, FoldsSoundly consts functions := by
  intro hall
  have hsound := hall [{ name := some "g", value := 1 }] [rotatesGlobal]
  have hreplaced : ReplacedAt [{ name := some "g", value := 1 }] [rotatesGlobal] 0 0 0 "g" 1 :=
    ⟨rotatesGlobal, _, _, _, _, rfl, rfl, rfl, rfl, rfl, rfl, by decide⟩
  have hlocal := hsound.unwritten "g" 1 ⟨0, 0, 0, hreplaced⟩ rotatesGlobal List.mem_cons_self _ List.mem_cons_self
    (.inr (.inr ⟨rfl, _, List.mem_cons_of_mem _ List.mem_cons_self, rfl⟩))
  exact absurd hlocal (by decide)

end Mettle.Ir

import Mettle.Ir.CoalesceUses
import Mettle.Ir.Dominators
import Mettle.Ir.Total

/-!
# Dead writes of temporaries

`ir_eliminate_dead_temp_writes_pass` of `ir_optimize_core.c`: one scan from the last instruction to the
first, with the number of uses seen so far of every temporary. `Needed` says which instructions the scan
leaves when every temporary has one definition.
-/

namespace Mettle.Ir

/-- `ir_instruction_is_trivially_dead_if_dest_unused`. -/
def Inst.isTriviallyDead (i : Inst) : Bool :=
  i.op ∈ ([.assign, .addressOf, .binary, .unary, .cast] : List Opcode) ∧ ¬ i.divideMayFault

/-- The scan after it has passed some instructions: the uses of each temporary, and what it leaves. -/
structure LiveScan where
  live : String → ℕ
  crossedLabel : Bool
  instructions : List Inst

namespace LiveScan

/-- Past an instruction. The uses of a temporary are discarded at its definition only behind the last
label. -/
def visit (i : Inst) (z : LiveScan) : LiveScan :=
  let crossed := z.crossedLabel || i.op = .label
  if i.writesTemp ∧ (i.dest.name.any fun t => z.live t = 0) ∧ i.isTriviallyDead then
    { z with crossedLabel := crossed, instructions := i.makeNop :: z.instructions }
  else
    { live := fun t =>
        (if i.writesTemp ∧ i.dest.name = some t ∧ ¬ crossed then 0 else z.live t) + i.tempUses.count t
      crossedLabel := crossed
      instructions := i :: z.instructions }

/-- The loop from the last instruction to the first. -/
def scan : List Inst → LiveScan
  | [] => { live := fun _ => 0, crossedLabel := false, instructions := [] }
  | i :: rest => visit i (scan rest)

end LiveScan

/-- `ir_eliminate_dead_temp_writes_pass`. -/
def Function.eliminateDeadTempWrites (fn : Function) : Function :=
  { fn with instructions := (LiveScan.scan fn.instructions).instructions }

/-! ## The shape the verifier accepts -/

/-- The definition of a temporary. -/
def Inst.definesTemp (i : Inst) (t : String) : Bool := i.writesTemp ∧ i.dest.name = some t

/-- The temporaries that `IRUseDef` lists as used. -/
def Inst.listedUses (i : Inst) : List String :=
  ((if i.writesDestination then [] else [i.dest]) ++ i.lhs :: i.rhs :: i.arguments).filterMap fun o =>
    if o.kind = .temp then o.name else none

namespace Function

variable (fn : Function) (dom : DomTree)

/-- `instruction_block`. -/
def instructionBlock (k : ℕ) : ℕ := (fn.blockStarts.filter (· ≤ k)).length - 1

/-- `ir_function_instruction_dominates`. -/
def instructionDominates (a b : ℕ) : Bool :=
  if fn.instructionBlock a = fn.instructionBlock b then a ≤ b
  else dom.blockDominates (fn.instructionBlock a) (fn.instructionBlock b)

/-- The instructions that define a temporary. -/
def tempDefs (t : String) : List ℕ :=
  (List.range fn.instructions.length).filter fun d =>
    (fn.insn d).writesDestination ∧ (fn.insn d).dest.kind = .temp ∧ (fn.insn d).dest.name = some t

/-- The uses that `ir_structure_dominance_violations` counts, each with its temporary. -/
def dominanceViolations : List (ℕ × String) :=
  (List.range fn.instructions.length).flatMap fun use =>
    ((fn.insn use).listedUses.filter fun t =>
      match fn.tempDefs t with
      | [d] =>
        (fn.insn use).op ≠ .phi ∧ (fn.insn use).op ≠ .addressOf ∧
          dom.rpoIndex (fn.instructionBlock use) ≠ none ∧ dom.rpoIndex (fn.instructionBlock d) ≠ none ∧
          ¬ fn.instructionDominates dom d use
      | _ => false).map fun t => (use, t)

/-- Every temporary has one definition. -/
def SingleDefs : Prop :=
  fn.instructions.Pairwise fun i j => ∀ t, i.definesTemp t = true → j.definesTemp t = false

end Function

/-- The scan leaves an instruction: it is more than a write of a temporary, or a later instruction that
is left counts the temporary as used. -/
inductive Needed (code : List Inst) : ℕ → Prop
  | fixed {j : ℕ} (h : ((code.getD j {}).writesTemp && (code.getD j {}).isTriviallyDead) = false) :
    Needed code j
  | used {j k : ℕ} {t : String} (hdef : (code.getD j {}).definesTemp t = true) (hlt : j < k)
    (huse : t ∈ (code.getD k {}).tempUses) (h : Needed code k) : Needed code j

/-! ## What the scan leaves -/

/-- What writes a temporary defines one. -/
theorem Inst.exists_definesTemp {i : Inst} (h : i.writesTemp = true) :
    ∃ t, i.dest.name = some t ∧ i.definesTemp t = true := by
  have hdest := h
  unfold writesTemp at hdest
  rw [decide_eq_true_eq, Operand.isTemp, decide_eq_true_eq] at hdest
  obtain ⟨t, ht⟩ := Option.isSome_iff_exists.mp hdest.1.2
  exact ⟨t, ht, by simp [definesTemp, h, ht]⟩

/-- Which one it defines. -/
theorem Inst.definesTemp_iff {i : Inst} {t : String} :
    i.definesTemp t = true ↔ i.writesTemp = true ∧ i.dest.name = some t := by
  unfold definesTemp
  rw [decide_eq_true_eq]

section Needed

variable {i : Inst} {code : List Inst}

/-- What is needed depends on what comes behind. -/
theorem needed_succ {j : ℕ} : Needed (i :: code) (j + 1) ↔ Needed code j := by
  constructor
  · intro h
    generalize hn : j + 1 = n at h
    induction h generalizing j with
    | fixed h =>
      subst hn
      exact .fixed h
    | @used n k t hdef hlt huse _ ih =>
      subst hn
      cases k with
      | zero => omega
      | succ k => exact .used hdef (by omega) huse (ih rfl)
  · intro h
    induction h with
    | fixed h => exact .fixed h
    | @used j k t hdef hlt huse _ ih =>
      exact @Needed.used (i :: code) (j + 1) (k + 1) t hdef (by omega) huse ih

/-- The first instruction is needed for itself or for what it defines. -/
theorem needed_zero : Needed (i :: code) 0 ↔ (i.writesTemp && i.isTriviallyDead) = false ∨
    ∃ t, i.definesTemp t = true ∧ ∃ k, t ∈ (code.getD k {}).tempUses ∧ Needed code k := by
  constructor
  · intro h
    cases h with
    | fixed h => exact Or.inl h
    | @used _ k t hdef hlt huse h =>
      cases k with
      | zero => omega
      | succ k => exact Or.inr ⟨t, hdef, k, huse, needed_succ.mp h⟩
  · rintro (h | ⟨t, hdef, k, huse, h⟩)
    · exact .fixed h
    · exact @Needed.used (i :: code) 0 (k + 1) t hdef (Nat.succ_pos k) huse (needed_succ.mpr h)

end Needed

namespace LiveScan

/-- What the scan knows behind some instructions. -/
structure Spec (code : List Inst) (z : LiveScan) : Prop where
  length : z.instructions.length = code.length
  kept : ∀ j, Needed code j → z.instructions.getD j {} = code.getD j {}
  removed : ∀ j, ¬ Needed code j → z.instructions.getD j {} = (code.getD j {}).makeNop
  live : ∀ t, (∀ i ∈ code, i.definesTemp t = false) →
    (z.live t ≠ 0 ↔ ∃ k, t ∈ (code.getD k {}).tempUses ∧ Needed code k)

theorem spec_nil : Spec [] (scan []) where
  length := rfl
  kept := fun _ _ => rfl
  removed := fun j h => absurd (.fixed rfl) h
  live := by
    intro t _
    simp [scan, Inst.tempUses, Opcode.readsSideOperands, Opcode.readsDestination]

/-- An instruction goes exactly when it is not needed. -/
theorem visit_iff {i : Inst} {code : List Inst} {z : LiveScan} (h : Spec code z)
    (hfresh : ∀ t, i.definesTemp t = true → ∀ j ∈ code, j.definesTemp t = false) :
    (i.writesTemp ∧ (i.dest.name.any fun t => z.live t = 0) ∧ i.isTriviallyDead) ↔
      ¬ Needed (i :: code) 0 := by
  rw [needed_zero, not_or]
  constructor
  · rintro ⟨hwrites, hdead, htrivial⟩
    refine ⟨by simp [hwrites, htrivial], ?_⟩
    rintro ⟨t, hdef, huse⟩
    rw [(Inst.definesTemp_iff.mp hdef).2] at hdead
    exact (h.live t (hfresh t hdef)).mpr huse (by simpa using hdead)
  · rintro ⟨hboth, huse⟩
    rw [Bool.not_eq_false, Bool.and_eq_true] at hboth
    obtain ⟨t, ht, hdef⟩ := Inst.exists_definesTemp hboth.1
    refine ⟨hboth.1, ?_, hboth.2⟩
    rw [ht, Option.any_some, decide_eq_true_eq]
    by_contra hlive
    exact huse ⟨t, hdef, (h.live t (hfresh t hdef)).mp hlive⟩

/-- One instruction more, from the end. -/
theorem Spec.visit {i : Inst} {code : List Inst} {z : LiveScan} (h : Spec code z)
    (hfresh : ∀ t, i.definesTemp t = true → ∀ j ∈ code, j.definesTemp t = false) :
    Spec (i :: code) (visit i z) := by
  have hiff := visit_iff h hfresh
  unfold LiveScan.visit
  split
  · rename_i hcond
    -- not needed by what follows: the instruction is dropped and reads nothing
    have hnot : ¬ Needed (i :: code) 0 := hiff.mp (by simpa using hcond)
    refine ⟨by simp [h.length], fun j hj => ?_, fun j hj => ?_, fun t ht => ?_⟩
    · cases j with
      | zero => exact absurd hj hnot
      | succ j => exact h.kept j (needed_succ.mp hj)
    · cases j with
      | zero => rfl
      | succ j => exact h.removed j fun hneed => hj (needed_succ.mpr hneed)
    · rw [h.live t fun j hj => ht j (.tail _ hj)]
      constructor
      · rintro ⟨k, huse, hneed⟩
        exact ⟨k + 1, huse, needed_succ.mpr hneed⟩
      · rintro ⟨k, huse, hneed⟩
        cases k with
        | zero => exact absurd hneed hnot
        | succ k => exact ⟨k, huse, needed_succ.mp hneed⟩
  · rename_i hcond
    -- needed: it is kept, its own temp is settled and its operands become live
    have hneeded : Needed (i :: code) 0 := by
      by_contra hnot
      exact hcond (by simpa using hiff.mpr hnot)
    refine ⟨by simp [h.length], fun j hj => ?_, fun j hj => ?_, fun t ht => ?_⟩
    · cases j with
      | zero => rfl
      | succ j => exact h.kept j (needed_succ.mp hj)
    · cases j with
      | zero => exact absurd hneeded hj
      | succ j => exact h.removed j fun hneed => hj (needed_succ.mpr hneed)
    · have hother : ¬ (i.writesTemp = true ∧ i.dest.name = some t) := by
        rw [← Inst.definesTemp_iff, ht i List.mem_cons_self]
        exact Bool.false_ne_true
      have hlive := h.live t fun j hj => ht j (.tail _ hj)
      have hcount : i.tempUses.count t ≠ 0 ↔ t ∈ i.tempUses := by
        rw [Ne, List.count_eq_zero, not_not]
      simp only
      rw [if_neg fun hc => hother ⟨hc.1, hc.2.1⟩, Ne, Nat.add_eq_zero_iff, not_and_or, ← Ne, ← Ne, hlive,
        hcount]
      constructor
      · rintro (⟨k, huse, hneed⟩ | huse)
        · exact ⟨k + 1, huse, needed_succ.mpr hneed⟩
        · exact ⟨0, huse, hneeded⟩
      · rintro ⟨k, huse, hneed⟩
        cases k with
        | zero => exact Or.inr huse
        | succ k => exact Or.inl ⟨k, huse, needed_succ.mp hneed⟩

/-- The scan keeps what is needed, and counts what is read of the kept instructions. -/
theorem scan_spec {code : List Inst}
    (h : code.Pairwise fun i j => ∀ t, i.definesTemp t = true → j.definesTemp t = false) :
    Spec code (scan code) := by
  induction code with
  | nil => exact spec_nil
  | cons i code ih =>
    rw [List.pairwise_cons] at h
    exact (ih h.2).visit fun t hdef j hj => h.1 j hj t hdef

end LiveScan

end Mettle.Ir

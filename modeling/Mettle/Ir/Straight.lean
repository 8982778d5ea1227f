import Mettle.Ir.Agree

/-!
# Straight-line code

A run over instructions that fall through executes them one after another.
-/

open List Option

namespace Mettle.Ir

/-- The instructions from one index to another. -/
def Function.slice (fn : Function) (start stop : ℕ) : List Inst :=
  (fn.instructions.drop start).take (stop - start)

/-- An opcode that decides by itself where the run goes on. -/
def Opcode.isControl (op : Opcode) : Bool :=
  op ∈ ([.jump, .branchZero, .branchEq, .return] : List Opcode)

namespace Function

variable {fn : Function} {start stop : ℕ}

theorem slice_of_le (h : stop ≤ start) : fn.slice start stop = [] := by
  unfold slice
  rw [Nat.sub_eq_zero_of_le h, take_zero]

/-- The first instruction of a range, and the others. -/
theorem slice_eq_cons (h : start < stop) (hlen : start < fn.instructions.length) :
    fn.slice start stop = fn.insn start :: fn.slice (start + 1) stop := by
  unfold slice insn
  rw [drop_eq_getElem_cons hlen, getD_eq_getElem _ _ hlen,
    show stop - start = (stop - (start + 1)) + 1 by omega, take_succ_cons]

/-- An instruction of a range is one of the function there. -/
theorem mem_slice {i : Inst} (h : i ∈ fn.slice start stop) :
    ∃ k, start ≤ k ∧ k < stop ∧ k < fn.instructions.length ∧ fn.insn k = i := by
  unfold slice at h
  obtain ⟨k, hk, rfl⟩ := mem_iff_getElem.mp h
  rw [length_take, length_drop] at hk
  refine ⟨start + k, by omega, by omega, by omega, ?_⟩
  rw [getElem_take, getElem_drop]
  exact getD_eq_getElem _ _ (by omega)

/-- An instruction inside a range is in it. -/
theorem insn_mem_slice {k : ℕ} (h : start ≤ k) (h' : k < stop) (hlen : k < fn.instructions.length) :
    fn.insn k ∈ fn.slice start stop := by
  unfold slice insn
  rw [getD_eq_getElem _ _ hlen, mem_take_iff_getElem]
  refine ⟨k - start, by rw [length_drop]; omega, ?_⟩
  rw [getElem_drop]
  congr 1
  omega

end Function

variable {W : Type} {H : Host W} {fn : Function}

/-- Two runs, one after the other. -/
theorem stepN_add (m n : ℕ) (c : Config W) :
    stepN H fn (m + n) c = (stepN H fn m c).bind (stepN H fn n) := by
  induction m generalizing c with
  | zero => simp [stepN]
  | succ m ih =>
    rw [Nat.add_right_comm, stepN, stepN, bind_assoc]
    congr 1
    funext c'
    exact ih c'

variable {pc : ℕ} {s : State W} {i : Inst} {fn' : Function}

/-- A step that falls through. -/
theorem step_exec (hpc : pc < fn.instructions.length) (hop : (fn.insn pc).op.isControl = false) :
    step H fn (.at pc s) = (s.exec H fn (fn.insn pc)).map (.at (pc + 1)) := by
  simp only [step, if_neg (show ¬ fn.instructions.length ≤ pc by omega)]
  cases h : (fn.insn pc).op <;> first | rfl | (rw [h] at hop; cases hop)

/-- A run over instructions that fall through. -/
theorem stepN_straight {stop : ℕ} (s : State W) (hle : pc ≤ stop) (hlen : stop ≤ fn.instructions.length)
    (hop : ∀ k, pc ≤ k → k < stop → (fn.insn k).op.isControl = false) :
    stepN H fn (stop - pc) (.at pc s) = (s.execAll H fn (fn.slice pc stop)).map (.at stop) := by
  obtain ⟨n, rfl⟩ : ∃ n, stop = pc + n := ⟨stop - pc, by omega⟩
  clear hle
  rw [Nat.add_sub_cancel_left]
  induction n generalizing pc s with
  | zero =>
    rw [Function.slice_of_le (by omega)]
    rfl
  | succ n ih =>
    rw [Function.slice_eq_cons (by omega) (by omega), stepN, step_exec (by omega) (hop pc (by omega) (by omega))]
    unfold State.execAll
    cases s.exec H fn (fn.insn pc) with
    | none => rfl
    | some s₁ =>
      rw [show pc + (n + 1) = pc + 1 + n by omega]
      refine ih s₁ (by omega) fun k hk hk' => hop k (by omega) (by omega)

theorem State.exec_nop (h : i.op = .nop) (s : State W) : s.exec H fn i = some s := by
  simp [exec, effect, Inst.results, h, storeAll]

/-- A `NOP` goes to the next instruction. -/
theorem step_nop (hpc : pc < fn.instructions.length) (h : (fn.insn pc).op = .nop) :
    step H fn (.at pc s) = some (.at (pc + 1) s) := by
  rw [step_exec hpc (by rw [h]; rfl), State.exec_nop h, map_some]

/-- The function matters to an instruction only where it declares a variable. -/
theorem exec_function (h : i.op ≠ .declareLocal) (s : State W) : s.exec H fn' i = s.exec H fn i := by
  unfold State.exec
  rw [if_neg h, if_neg h]

/-- Instructions that declare nothing do the same in every function. -/
theorem execAll_function {l : List Inst} (h : ∀ i ∈ l, i.op ≠ .declareLocal) (s : State W) :
    s.execAll H fn' l = s.execAll H fn l := by
  induction l generalizing s with
  | nil => rfl
  | cons i l ih =>
    unfold State.execAll
    rw [exec_function (h i (.head _))]
    congr 1
    funext s₁
    exact ih (fun j hj => h j (.tail _ hj)) s₁

end Mettle.Ir

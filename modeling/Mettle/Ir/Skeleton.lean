import Mettle.Ir.Straight
import Mettle.Lib.Segments

/-!
# Functions with the same skeleton

A pass that rewrites instructions in place keeps the labels and the instructions that take an address.
Jumps then go to the same places and locals are declared in the same way, so instructions that stay
take the same steps in states that agree on what they read (`step_agree`).
-/

open List Option Function

namespace Mettle.Ir

/-- The instructions are as many, and labels and taken addresses are at the same places. -/
structure SameSkeleton (fn out : Function) : Prop where
  length : out.instructions.length = fn.instructions.length
  label : ∀ j name, ((out.insn j).op = .label ∧ (out.insn j).text = some name) ↔
    ((fn.insn j).op = .label ∧ (fn.insn j).text = some name)
  address : ∀ j x, ((out.insn j).op = .addressOf ∧ (out.insn j).lhs.kind = .symbol ∧
      (out.insn j).lhs.name = some x) ↔
    ((fn.insn j).op = .addressOf ∧ (fn.insn j).lhs.kind = .symbol ∧ (fn.insn j).lhs.name = some x)
  returns : out.returnTypeName = fn.returnTypeName

/-- An instruction by its place in the list. -/
theorem getElem_insn (fn : Function) {j : ℕ} (hj : j < fn.instructions.length) :
    fn.instructions[j] = fn.insn j := by
  unfold Function.insn
  rw [getD_eq_getElem _ _ hj]

/-- What holds of every instruction, and of the `NOP` beyond the end. -/
theorem Function.forall_insn {fn : Function} {P : Inst → Prop} (hnop : P {})
    (h : ∀ i ∈ fn.instructions, P i) (j : ℕ) : P (fn.insn j) := by
  by_cases hj : j < fn.instructions.length
  · rw [← getElem_insn fn hj]
    exact h _ (getElem_mem hj)
  · unfold insn
    rw [getD_eq_default _ _ (by omega)]
    exact hnop

/-- A variable whose address is taken has an instruction that takes it. -/
theorem Function.addressTaken_iff (fn : Function) (x : String) :
    fn.addressTaken x = true ↔ ∃ j < fn.instructions.length,
      (fn.insn j).op = .addressOf ∧ (fn.insn j).lhs.kind = .symbol ∧ (fn.insn j).lhs.name = some x := by
  unfold Function.addressTaken
  rw [List.any_eq_true]
  constructor
  · rintro ⟨i, hi, hp⟩
    obtain ⟨j, hj, rfl⟩ := mem_iff_getElem.mp hi
    rw [getElem_insn fn hj] at hp
    exact ⟨j, hj, by simpa using hp⟩
  · rintro ⟨j, hj, hp⟩
    refine ⟨fn.instructions[j], getElem_mem hj, ?_⟩
    rw [getElem_insn fn hj]
    simpa using hp

/-- The first label of a name is at the same place. -/
theorem Function.findLabel_congr {fn out : Function}
    (hlength : out.instructions.length = fn.instructions.length)
    (hlabel : ∀ j < fn.instructions.length, ∀ name,
      ((out.insn j).op = .label ∧ (out.insn j).text = some name) ↔
        ((fn.insn j).op = .label ∧ (fn.insn j).text = some name)) (name : Option String) :
    out.findLabel name = fn.findLabel name := by
  unfold Function.findLabel
  cases name with
  | none => rfl
  | some name =>
    have hmap : (out.instructions.map fun i => decide (i.op = .label ∧ i.text = some name)) =
        fn.instructions.map fun i => decide (i.op = .label ∧ i.text = some name) := by
      refine ext_getElem (by simp [hlength]) fun j hj hj' => ?_
      rw [length_map] at hj hj'
      rw [getElem_map, getElem_map, getElem_insn out hj, getElem_insn fn hj', decide_eq_decide]
      exact hlabel j hj' name
    have := congrArg (findIdx? id) hmap
    rwa [findIdx?_map, findIdx?_map] at this

/-- An instruction takes the same steps in functions that take the same addresses. -/
theorem exec_congr_addressTaken {W : Type} {H : Host W} {fn out : Function} {s : State W}
    (h : ∀ x, out.addressTaken x = fn.addressTaken x) (i : Inst) : s.exec H out i = s.exec H fn i := by
  unfold State.exec State.declareLocal Host.declaredVar
  simp only [h]

namespace SameSkeleton

variable {W : Type} {H : Host W} {fn out : Function} (h : SameSkeleton fn out)

include h

theorem findLabel (name : Option String) : out.findLabel name = fn.findLabel name :=
  Function.findLabel_congr h.length (fun j _ => h.label j) name

theorem addressTaken (x : String) : out.addressTaken x = fn.addressTaken x := by
  rw [Bool.eq_iff_iff, Function.addressTaken_iff, Function.addressTaken_iff, h.length]
  constructor
  · rintro ⟨j, hj, haddr⟩
    exact ⟨j, hj, (h.address j x).mp haddr⟩
  · rintro ⟨j, hj, haddr⟩
    exact ⟨j, hj, (h.address j x).mpr haddr⟩

theorem exec (s : State W) (i : Inst) : s.exec H out i = s.exec H fn i :=
  exec_congr_addressTaken h.addressTaken i

end SameSkeleton

/-- Functions whose steps are the same wherever an invariant of the first one holds run alike. -/
theorem stepN_congr {W : Type} {H : Host W} {fn out : Function} {Inv : ℕ → State W → Prop}
    (hsame : ∀ {pc s}, Inv pc s → step H out (.at pc s) = step H fn (.at pc s))
    (hinv : ∀ {pc s pc' s'}, Inv pc s → step H fn (.at pc s) = some (.at pc' s') → Inv pc' s') (n : ℕ) {pc : ℕ}
    {s : State W} (hs : Inv pc s) : stepN H out n (.at pc s) = stepN H fn n (.at pc s) := by
  have hreturned : ∀ (f : Function) n v (s : State W), stepN H f n (.returned v s) = some (.returned v s) := by
    intro f n v s
    induction n with
    | zero => rfl
    | succ n ih =>
      exact ih
  induction n generalizing pc s with
  | zero => rfl
  | succ n ih =>
    rw [stepN, stepN, hsame hs]
    cases hstep : step H fn (.at pc s) with
    | none => rfl
    | some c =>
      rw [bind_some, bind_some]
      cases c with
      | «at» pc' s' => exact ih (hinv hs hstep)
      | returned v s' => rw [hreturned, hreturned]

/-- The instructions are as many and jumps go to the same places. -/
structure SameFlow (fn out : Function) : Prop where
  length : out.instructions.length = fn.instructions.length
  findLabel : ∀ name, out.findLabel name = fn.findLabel name
  returns : out.returnTypeName = fn.returnTypeName

theorem SameFlow.symm {fn out : Function} (h : SameFlow fn out) : SameFlow out fn :=
  ⟨h.length.symm, fun name => (h.findLabel name).symm, h.returns.symm⟩

/-- Functions with the same skeleton have the same flow. -/
theorem SameSkeleton.sameFlow {fn out : Function} (h : SameSkeleton fn out) : SameFlow fn out :=
  ⟨h.length, h.findLabel, h.returns⟩

/-! ## Steps of instructions that stay -/

variable {W : Type} {H : Host W} {fn out : Function} {D : String → Prop}

/-- Configurations at the same place whose states agree off some names. -/
inductive Config.AgreeOff (D : String → Prop) : Config W → Config W → Prop
  | at {pc : ℕ} {s s' : State W} (h : s.AgreeOff D s') : AgreeOff D (.at pc s) (.at pc s')
  | returned {v : Value} {s s' : State W} (h : s.AgreeOff D s') : AgreeOff D (.returned v s) (.returned v s')

/-- An instruction that does not read a name has it in no source. -/
theorem Inst.not_reads {i : Inst} {x : String} (h : i.readsName x = false) {o : Operand}
    (ho : o ∈ i.sources) : o.var ≠ some x := by
  unfold Inst.readsName at h
  rw [List.any_eq_false] at h
  intro hx
  exact h o ho (by simpa using hx)

/-- An instruction that stays and does not read the names where the states differ takes the same
step. -/
theorem SameFlow.step_agree (hflow : SameFlow fn out) {pc : ℕ} {s s' : State W} {c : Config W}
    (hinsn : out.insn pc = fn.insn pc)
    (hlocal : ∀ t : State W, t.exec H out (fn.insn pc) = t.exec H fn (fn.insn pc)) (h : s.AgreeOff D s')
    (hreads : ∀ x, D x → (fn.insn pc).readsName x = false)
    (hsymbol : ∀ e ∈ (fn.insn pc).written, ∀ x, e.kind = .symbol → e.name = some x → ¬ D x)
    (hstep : step H fn (.at pc s) = some c) :
    ∃ c', step H out (.at pc s') = some c' ∧ Config.AgreeOff D c c' := by
  -- the operands are read alike; after this the two steps are the same case by case
  have hfetch : ∀ o ∈ (fn.insn pc).sources, s'.fetch H o = s.fetch H o :=
    fun o ho => State.fetch_agree h fun x hx hd => Inst.not_reads (hreads x hd) ho hx
  unfold Inst.sources at hfetch
  simp only [step, hflow.length, hinsn, hflow.findLabel] at hstep ⊢
  split at hstep
  · rename_i hlen
    rw [if_pos hlen]
    cases hstep
    exact ⟨_, rfl, .returned h⟩
  rename_i hlen
  rw [if_neg hlen]
  -- jump, conditional branch, compare and branch, return, and the rest
  split at hstep
  · obtain ⟨target, htarget, rfl⟩ := map_eq_some_iff.mp hstep
    exact ⟨.at target s', by rw [htarget, map_some], .at h⟩
  · rename_i hop
    rw [hop] at hfetch
    simp only [hfetch (fn.insn pc).lhs (by simp), bind_eq_bind]
    simp only [bind_eq_bind, bind_eq_some_iff] at hstep
    obtain ⟨cond, hcond, hstep⟩ := hstep
    rw [hcond, bind_some]
    split at hstep
    · rename_i htruth
      rw [if_pos htruth]
      cases hstep
      exact ⟨_, rfl, .at h⟩
    · rename_i htruth
      rw [if_neg htruth]
      obtain ⟨target, htarget, rfl⟩ := map_eq_some_iff.mp hstep
      exact ⟨.at target s', by rw [htarget, map_some], .at h⟩
  · rename_i hop
    rw [hop] at hfetch
    have hbranch : s'.branchEq H (fn.insn pc) = s.branchEq H (fn.insn pc) := by
      unfold State.branchEq
      rw [hfetch _ (by simp), hfetch _ (by simp)]
    simp only [hbranch, bind_eq_bind]
    simp only [bind_eq_bind, bind_eq_some_iff] at hstep
    obtain ⟨equal, hequal, hstep⟩ := hstep
    rw [hequal, bind_some]
    split at hstep
    · rename_i htruth
      rw [if_pos htruth]
      obtain ⟨target, htarget, rfl⟩ := map_eq_some_iff.mp hstep
      exact ⟨.at target s', by rw [htarget, map_some], .at h⟩
    · rename_i htruth
      rw [if_neg htruth]
      cases hstep
      exact ⟨_, rfl, .at h⟩
  · rename_i hop
    rw [hop] at hfetch
    have hnarrow : out.narrowReturn H.floats = fn.narrowReturn H.floats := by
      funext v
      unfold Function.narrowReturn
      rw [hflow.returns]
    simp only [hnarrow, hfetch (fn.insn pc).lhs (by simp)]
    split at hstep
    · rename_i hkind
      rw [if_pos hkind]
      cases hstep
      exact ⟨_, rfl, .returned h⟩
    · rename_i hkind
      rw [if_neg hkind]
      obtain ⟨v, hv, rfl⟩ := map_eq_some_iff.mp hstep
      exact ⟨.returned _ s', by rw [hv, map_some], .returned h⟩
  · obtain ⟨s₁, hexec, rfl⟩ := map_eq_some_iff.mp hstep
    obtain ⟨s₁', hexec', hagree⟩ := State.exec_agree h hreads hsymbol hexec
    exact ⟨.at (pc + 1) s₁', by rw [hlocal, hexec', map_some], .at hagree⟩

/-- An instruction that stays takes the same step in the same state. -/
theorem SameSkeleton.step_eq (h : SameSkeleton fn out) {pc : ℕ} (s : State W)
    (hinsn : out.insn pc = fn.insn pc) : step H out (.at pc s) = step H fn (.at pc s) := by
  have hreturn : ∀ v, out.narrowReturn H.floats v = fn.narrowReturn H.floats v := by
    intro v
    unfold Function.narrowReturn
    rw [h.returns]
  simp only [step, h.length, hinsn, h.findLabel, hreturn, h.exec]

/-- An instruction that is the same in both functions steps alike off names that it does not read. -/
theorem step_agree (hskel : SameSkeleton fn out) {pc : ℕ} {s s' : State W} {c : Config W}
    (hinsn : out.insn pc = fn.insn pc) (h : s.AgreeOff D s')
    (hreads : ∀ x, D x → (fn.insn pc).readsName x = false)
    (hsymbol : ∀ e ∈ (fn.insn pc).written, ∀ x, e.kind = .symbol → e.name = some x → ¬ D x)
    (hstep : step H fn (.at pc s) = some c) :
    ∃ c', step H out (.at pc s') = some c' ∧ Config.AgreeOff D c c' :=
  hskel.sameFlow.step_agree hinsn (fun t => hskel.exec t _) h hreads hsymbol hstep

/-! ## Shapes of variables -/

/-- A step keeps the shape of a variable that it does not declare. -/
theorem State.storeDest_shape {s t : State W} {o : Operand} {v : Value} (x : String)
    (h : s.storeDest H o v = some t) : Var.SameShape (s.env x) (t.env x) := by
  unfold storeDest at h
  split at h
  · cases h
    exact Var.SameShape.refl _
  · rename_i y _ _
    cases h
    simp only [update_apply]
    split
    · rename_i hxy
      rw [hxy]
      exact Var.sameShape_write H.floats (s.env y) v
    · exact Var.SameShape.refl _
  · rename_i y _ _
    split at h
    · rename_i var hvar
      cases h
      simp only [update_apply]
      split
      · rename_i hxy
        rw [hxy, hvar]
        exact Var.sameShape_write H.floats (some var) v
      · exact Var.SameShape.refl _
    · obtain ⟨w, -, rfl⟩ := map_eq_some_iff.mp h
      exact Var.SameShape.refl _
  · cases h

/-- Stores keep the shapes of the variables. -/
theorem State.storeAll_shape {s t : State W} {writes : List (Operand × Value)} (x : String)
    (h : s.storeAll H writes = some t) : Var.SameShape (s.env x) (t.env x) := by
  induction writes generalizing s with
  | nil =>
    cases h
    exact Var.SameShape.refl _
  | cons e rest ih =>
    rw [storeAll, bind_eq_some_iff] at h
    obtain ⟨s₁, hfirst, hrest⟩ := h
    exact (storeDest_shape x hfirst).trans (ih hrest)

/-- So does every instruction that does not declare the variable. -/
theorem State.exec_shape {s t : State W} {i : Inst} {x : String}
    (hdeclare : i.op = .declareLocal → i.dest.name ≠ some x) (h : s.exec H fn i = some t) :
    Var.SameShape (s.env x) (t.env x) := by
  unfold exec at h
  split at h
  · rename_i hop
    unfold declareLocal at h
    split at h
    · cases h
    rw [bind_eq_some_iff] at h
    obtain ⟨y, hname, h⟩ := h
    have hne : x ≠ y := by
      rintro rfl
      exact hdeclare hop hname
    split at h
    · cases h
      simp only [update_of_ne hne]
      exact Var.SameShape.refl _
    · obtain ⟨w, -, rfl⟩ := map_eq_some_iff.mp h
      simp only [update_of_ne hne]
      exact Var.SameShape.refl _
  · rw [bind_eq_some_iff] at h
    obtain ⟨⟨vs, w⟩, -, hstore⟩ := h
    exact storeAll_shape (s := { s with world := w }) x hstore

/-! ## Variables that are not written -/

/-- A store keeps all other variables. -/
theorem State.storeDest_env {s t : State W} {o : Operand} {v : Value} {x : String} (hx : o.var ≠ some x)
    (h : s.storeDest H o v = some t) : t.env x = s.env x := by
  unfold storeDest at h
  unfold Operand.var at hx
  split at h
  · cases h
    rfl
  · rename_i y hk hn
    cases h
    exact update_of_ne (fun hxy => hx (by simp [hk, hn, hxy])) _ _
  · rename_i y hk hn
    split at h
    · cases h
      exact update_of_ne (fun hxy => hx (by simp [hk, hn, hxy])) _ _
    · obtain ⟨w, -, rfl⟩ := map_eq_some_iff.mp h
      rfl
  · cases h

/-- So do several. -/
theorem State.storeAll_env {s t : State W} {writes : List (Operand × Value)} {x : String}
    (hx : ∀ e ∈ writes, e.1.var ≠ some x) (h : s.storeAll H writes = some t) : t.env x = s.env x := by
  induction writes generalizing s with
  | nil =>
    cases h
    rfl
  | cons e rest ih =>
    rw [storeAll, bind_eq_some_iff] at h
    obtain ⟨s₁, hfirst, hrest⟩ := h
    rw [ih (fun e he => hx e (.tail _ he)) hrest,
      storeDest_env (hx e (.head _)) hfirst]

/-- An instruction leaves a variable that it does not write as it is. -/
theorem State.exec_env {s t : State W} {i : Inst} {x : String} (h : s.exec H fn i = some t)
    (hx : i.writesName x = false) : t.env x = s.env x := by
  have hwritten : ∀ e ∈ i.written, e.var ≠ some x := by
    intro e he hvar
    unfold Inst.writesName at hx
    rw [List.any_eq_false] at hx
    exact hx e he (by simpa using hvar)
  unfold Inst.written at hwritten
  unfold exec at h
  split at h
  · rename_i hop
    rw [if_pos hop] at hwritten
    unfold declareLocal at h
    split at h
    · cases h
    rename_i hk
    rw [bind_eq_some_iff] at h
    obtain ⟨y, hname, h⟩ := h
    have hne : x ≠ y := by
      rintro rfl
      exact hwritten i.dest (.head _) (by simp [Operand.var, hk, hname])
    split at h
    · cases h
      exact update_of_ne hne _ _
    · obtain ⟨w, -, rfl⟩ := map_eq_some_iff.mp h
      exact update_of_ne hne _ _
  · rename_i hop
    rw [if_neg hop] at hwritten
    rw [bind_eq_some_iff] at h
    obtain ⟨⟨vs, w⟩, -, hstore⟩ := h
    exact storeAll_env (s := { s with world := w })
      (fun e he => hwritten e.1 (of_mem_zip he).1) hstore

end Mettle.Ir

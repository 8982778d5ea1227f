import Mettle.Ir.Skeleton

/-!
# Code that moves

A pass that inserts or removes instructions moves the others. What an instruction does does not depend
on where it stands; where it goes next does, through its position and through the positions of the
labels. `State.leave` is the first part of a step and `Exit.land` the second.
-/

namespace Mettle.Ir

open Lib List Option

variable {W : Type} {H : Host W} {fn out : Function}

/-- How an instruction is left: for the next one, for a label, or with the value of the activation. -/
inductive Exit (W : Type) where
  | next (s : State W)
  | goto (label : Option String) (s : State W)
  | ret (v : Value) (s : State W)

variable (H) in
/-- What an instruction does, wherever it stands. -/
def State.leave (fn : Function) (s : State W) (i : Inst) : Option (Exit W) :=
  match i.op with
  | .jump => some (.goto i.text s)
  | .branchZero => (s.fetch H i.lhs).map fun cond => if cond.truth then .next s else .goto i.text s
  | .branchEq => (s.branchEq H i).map fun equal => if equal then .goto i.text s else .next s
  | .return =>
    if i.lhs.kind = .none then some (.ret (fn.narrowReturn H.floats (.ofInt 0)) s)
    else (s.fetch H i.lhs).map fun v => .ret (fn.narrowReturn H.floats v) s
  | _ => (s.exec H fn i).map .next

/-- Where an instruction at a position leads. -/
def Exit.land (fn : Function) (pc : ℕ) : Exit W → Option (Config W)
  | .next s => some (.at (pc + 1) s)
  | .goto label s => (fn.findLabel label).map fun target => .at target s
  | .ret v s => some (.returned v s)

variable {pc low : ℕ} {s t s' : State W} {i : Inst} {label : Option String} {c d : Config W}

/-- A step is to leave the instruction and to land at the next one. -/
theorem step_eq_land (hpc : pc < fn.instructions.length) :
    step H fn (.at pc s) = (s.leave H fn (fn.insn pc)).bind (Exit.land fn pc) := by
  simp only [step, if_neg (show ¬ fn.instructions.length ≤ pc by omega), State.leave]
  cases hop : (fn.insn pc).op <;> try rfl
  case branchZero =>
    cases s.fetch H (fn.insn pc).lhs with
    | none => rfl
    | some cond => cases htruth : cond.truth <;> simp [htruth, Exit.land]
  case branchEq =>
    cases s.branchEq H (fn.insn pc) with
    | none => rfl
    | some equal => cases equal <;> simp [Exit.land]
  case «return» =>
    by_cases hkind : (fn.insn pc).lhs.kind = .none
    · simp [hkind, Exit.land]
    · cases s.fetch H (fn.insn pc).lhs <;> simp [hkind, Exit.land]
  all_goals cases s.exec H fn (fn.insn pc) <;> rfl

/-- An instruction that does not branch is left to the next one. -/
theorem State.leave_of_not_control (hop : i.op.isControl = false) : s.leave H fn i = (s.exec H fn i).map .next := by
  unfold State.leave
  cases h : i.op <;> first | rfl | (rw [h] at hop; cases hop)

/-- A branch that is taken goes to its label and changes nothing. -/
theorem State.leave_goto (h : s.leave H fn i = some (.goto label t)) : label = i.text ∧ t = s := by
  have hexit : ∀ {e : Exit W}, e = .goto i.text s → e = .goto label t → label = i.text ∧ t = s := by
    rintro e rfl he
    cases he
    exact ⟨rfl, rfl⟩
  unfold State.leave at h
  split at h
  · exact hexit rfl (some.inj h)
  · obtain ⟨cond, -, hcond⟩ := map_eq_some_iff.mp h
    split at hcond
    · cases hcond
    · exact hexit rfl hcond
  · obtain ⟨equal, -, hequal⟩ := map_eq_some_iff.mp h
    split at hequal
    · exact hexit rfl hequal
    · cases hequal
  · split at h
    · cases h
    · obtain ⟨v, -, hv⟩ := map_eq_some_iff.mp h
      cases hv
  · obtain ⟨u, -, hu⟩ := map_eq_some_iff.mp h
    cases hu

/-- Only jumps and branches go to a label. -/
theorem State.leave_goto_op (h : s.leave H fn i = some (.goto label t)) :
    i.op = .jump ∨ i.op = .branchZero ∨ i.op = .branchEq := by
  unfold State.leave at h
  split at h
  · exact Or.inl ‹_›
  · exact Or.inr (Or.inl ‹_›)
  · exact Or.inr (Or.inr ‹_›)
  · split at h
    · cases h
    · obtain ⟨v, -, hv⟩ := map_eq_some_iff.mp h
      cases hv
  · obtain ⟨u, -, hu⟩ := map_eq_some_iff.mp h
    cases hu

/-- Jumps and returns do not fall through. -/
theorem State.leave_next_op (h : s.leave H fn i = some (.next t)) : i.op ≠ .jump ∧ i.op ≠ .return := by
  constructor
  · intro hop
    rw [leave, hop] at h
    cases h
  · intro hop
    rw [leave, hop] at h
    simp only at h
    split at h
    · cases h
    · obtain ⟨v, -, hv⟩ := map_eq_some_iff.mp h
      cases hv

/-- An instruction does the same in functions that take the same addresses and return the same type. -/
theorem leave_congr (haddress : ∀ x, out.addressTaken x = fn.addressTaken x)
    (hreturns : out.returnTypeName = fn.returnTypeName) (s : State W) (i : Inst) :
    s.leave H out i = s.leave H fn i := by
  unfold State.leave Function.narrowReturn
  rw [hreturns, exec_congr_addressTaken haddress]

/-! ## Ends of an activation -/

variable (H) in
/-- A step of an activation that has not returned. -/
def advance (fn : Function) : Config W → Option (Config W)
  | .at pc s => step H fn (.at pc s)
  | .returned _ _ => none

/-- What the caller sees of an activation that goes no further: the value if it has returned, and the
host. An activation that has not returned was stopped by a fault. -/
def Config.outcome : Config W → Option Value × W
  | .at _ s => (none, s.world)
  | .returned v s => (some v, s.world)

variable (H) in
/-- The activation comes to an end from a configuration, and the caller sees `o`. -/
abbrev Outcome (fn : Function) (c : Config W) (o : Option Value × W) : Prop :=
  Ends (advance H fn) Config.outcome c o

@[simp] theorem advance_at (pc : ℕ) (s : State W) : advance H fn (.at pc s) = step H fn (.at pc s) := rfl

/-- Inside the function, to advance is to step. -/
theorem advance_land (hpc : pc < fn.instructions.length) :
    advance H fn (.at pc s) = (s.leave H fn (fn.insn pc)).bind (Exit.land fn pc) :=
  step_eq_land hpc

/-- Behind the last instruction the function returns zero. -/
theorem advance_end (hpc : fn.instructions.length ≤ pc) :
    advance H fn (.at pc s) = some (.returned (.ofInt 0) s) := by
  rw [advance_at, step, if_pos hpc]

/-- At a position or behind it. -/
def Config.From (low : ℕ) : Config W → Prop
  | .at pc _ => low ≤ pc
  | .returned _ _ => False

theorem Config.From.mono {low' : ℕ} (h : c.From low) (hle : low' ≤ low) : c.From low' := by
  cases c with
  | «at» pc s => exact le_trans hle h
  | returned v s => exact h

/-- A path may start with one more step. -/
theorem path_at (hle : low ≤ pc) (hstep : advance H fn (.at pc s) = some c)
    (hpath : Path (advance H fn) (Config.From low) c d) : Path (advance H fn) (Config.From low) (.at pc s) d :=
  Relation.ReflTransGen.head ⟨hle, hstep⟩ hpath

/-- So may a path that takes at least one step. -/
theorem pathOn_at (hle : low ≤ pc) (hstep : advance H fn (.at pc s) = some c)
    (hpath : Path (advance H fn) (Config.From low) c d) : PathOn (advance H fn) (Config.From low) (.at pc s) d :=
  Relation.TransGen.head' ⟨hle, hstep⟩ hpath

/-- An instruction that executes falls through. -/
theorem not_control_of_exec (h : s.exec H fn i = some s') : i.op.isControl = false := by
  by_contra hop
  unfold State.exec State.effect at h
  cases hi : i.op <;> simp [hi, Opcode.isControl] at hop h

/-- A run over instructions that execute. -/
theorem path_straight {stop : ℕ} (hle : pc ≤ stop) (hlen : stop ≤ fn.instructions.length)
    (hexec : s.execAll H fn (fn.slice pc stop) = some s') :
    Path (advance H fn) (Config.From pc) (.at pc s) (.at stop s') := by
  obtain ⟨n, rfl⟩ : ∃ n, stop = pc + n := ⟨stop - pc, by omega⟩
  clear hle
  induction n generalizing pc s with
  | zero =>
    rw [Function.slice_of_le (by omega)] at hexec
    cases hexec
    exact .refl
  | succ n ih =>
    rw [Function.slice_eq_cons (by omega) (by omega), State.execAll, bind_eq_some_iff] at hexec
    obtain ⟨s₁, hs₁, hrest⟩ := hexec
    have hstep : advance H fn (.at pc s) = some (.at (pc + 1) s₁) := by
      rw [advance_at, step_exec (by omega) (not_control_of_exec hs₁), hs₁, map_some]
    rw [show pc + (n + 1) = pc + 1 + n by omega] at hrest ⊢
    exact path_at le_rfl hstep ((ih (by omega) hrest).mono fun c hc => hc.mono (Nat.le_succ pc))

variable (H) in
/-- The host when instructions executed in order stop. -/
def State.stopWorld (fn : Function) : State W → List Inst → W
  | s, [] => s.world
  | s, i :: rest =>
    match s.exec H fn i with
    | none => s.world
    | some s' => stopWorld fn s' rest

/-- Instructions that fall through and do not all execute end the activation. -/
theorem outcome_straight {stop : ℕ} (hlen : stop ≤ fn.instructions.length)
    (hop : ∀ k, pc ≤ k → k < stop → (fn.insn k).op.isControl = false)
    (hstuck : s.execAll H fn (fn.slice pc stop) = none) :
    Outcome H fn (.at pc s) (none, s.stopWorld H fn (fn.slice pc stop)) := by
  have hlt : pc < stop := by
    by_contra hle
    rw [Function.slice_of_le (by omega)] at hstuck
    cases hstuck
  obtain ⟨n, rfl⟩ : ∃ n, stop = pc + n := ⟨stop - pc, by omega⟩
  induction n generalizing pc s with
  | zero => omega
  | succ n ih =>
    rw [Function.slice_eq_cons (by omega) (by omega)] at hstuck ⊢
    unfold State.execAll at hstuck
    unfold State.stopWorld
    have hstep : advance H fn (.at pc s) = (s.exec H fn (fn.insn pc)).map (.at (pc + 1)) :=
      step_exec (by omega) (hop pc le_rfl (by omega))
    cases hexec : s.exec H fn (fn.insn pc) with
    | none =>
      rw [hexec] at hstep
      exact Ends.stop hstep
    | some s₁ =>
      rw [hexec] at hstep hstuck
      rw [bind_some, show pc + (n + 1) = pc + 1 + n by omega] at hstuck
      rw [show pc + (n + 1) = pc + 1 + n by omega]
      apply (ends_step hstep).mpr
      apply ih (by omega) (fun k hk hk' => hop k (by omega) (by omega)) hstuck
      by_contra hle
      rw [Function.slice_of_le (by omega)] at hstuck
      cases hstuck

/-- Instructions execute the same in functions that take the same addresses. -/
theorem execAll_congr (haddress : ∀ x, out.addressTaken x = fn.addressTaken x) (l : List Inst) (s : State W) :
    s.execAll H out l = s.execAll H fn l := by
  induction l generalizing s with
  | nil => rfl
  | cons i l ih =>
    unfold State.execAll
    rw [exec_congr_addressTaken haddress]
    congr 1
    funext s₁
    exact ih s₁

/-- The world where a list of instructions gets stuck depends on which variables have their address taken, not on the
rest of the function. -/
theorem stopWorld_congr (haddress : ∀ x, out.addressTaken x = fn.addressTaken x) (l : List Inst) (s : State W) :
    s.stopWorld H out l = s.stopWorld H fn l := by
  induction l generalizing s with
  | nil => rfl
  | cons i l ih =>
    unfold State.stopWorld
    rw [exec_congr_addressTaken haddress]
    cases s.exec H fn i with
    | none => rfl
    | some s₁ => exact ih s₁

/-- A stretch of instructions that is another one's copy. -/
structure Copied (fn out : Function) (source target count : ℕ) : Prop where
  same : ∀ k < count, out.insn (target + k) = fn.insn (source + k)
  source_le : source + count ≤ fn.instructions.length
  target_le : target + count ≤ out.instructions.length
  address : ∀ x, out.addressTaken x = fn.addressTaken x
  straight : ∀ k < count, (fn.insn (source + k)).op.isControl = false

section

variable {source target count : ℕ} (h : Copied fn out source target count)

include h

theorem Copied.slice_eq : out.slice target (target + count) = fn.slice source (source + count) := by
  have h₁ := h.source_le
  have h₂ := h.target_le
  refine ext_getElem ?_ fun k hk hk' => ?_
  · unfold Function.slice
    rw [length_take, length_drop, length_take, length_drop]
    omega
  · unfold Function.slice at hk hk' ⊢
    rw [length_take, length_drop] at hk hk'
    rw [getElem_take, getElem_drop, getElem_take, getElem_drop, getElem_insn, getElem_insn]
    exact h.same k (by omega)

/-- Running over the copies is executing the instructions. -/
theorem Copied.path {s s' : State W} (hexec : s.execAll H fn (fn.slice source (source + count)) = some s') :
    Path (advance H out) (Config.From target) (.at target s) (.at (target + count) s') := by
  apply path_straight (Nat.le_add_right target count) h.target_le
  rw [h.slice_eq, execAll_congr h.address]
  exact hexec

/-- Where the instructions get stuck, so do the copies, in the same world. -/
theorem Copied.outcome {s : State W} (hstuck : s.execAll H fn (fn.slice source (source + count)) = none) :
    Outcome H out (.at target s) (none, s.stopWorld H fn (fn.slice source (source + count))) := by
  rw [← h.slice_eq, ← stopWorld_congr h.address]
  apply outcome_straight h.target_le
  · intro k hk hk'
    rw [show k = target + (k - target) by omega, h.same _ (by omega)]
    exact h.straight _ (by omega)
  · rw [h.slice_eq, execAll_congr h.address]
    exact hstuck

end

/-- A stretch is its own copy. -/
theorem Copied.refl {start stop : ℕ} (hle : start ≤ stop) (hlen : stop ≤ fn.instructions.length)
    (hop : ∀ k, start ≤ k → k < stop → (fn.insn k).op.isControl = false) :
    Copied fn fn start start (stop - start) where
  same _ _ := rfl
  source_le := by omega
  target_le := by omega
  address _ := rfl
  straight k hk := hop _ (by omega) (by omega)

/-- `NOP`s change nothing. -/
theorem execAll_nops {l : List Inst} (h : ∀ i ∈ l, i.op = .nop) (s : State W) : s.execAll H fn l = some s := by
  induction l with
  | nil => rfl
  | cons i l ih =>
    unfold State.execAll
    rw [State.exec_nop (h i (.head _)), bind_some]
    exact ih fun j hj => h j (.tail _ hj)

/-- A run over instructions that do nothing. -/
theorem path_nops {pc stop : ℕ} (s : State W) (hle : pc ≤ stop) (hlen : stop ≤ fn.instructions.length)
    (hop : ∀ k, pc ≤ k → k < stop → (fn.insn k).op = .nop) :
    Path (advance H fn) (Config.From pc) (.at pc s) (.at stop s) := by
  apply path_straight hle hlen
  apply execAll_nops
  intro i hi
  obtain ⟨k, hk, hk', -, rfl⟩ := Function.mem_slice hi
  exact hop k hk hk'

/-! ## Labels -/

namespace Function

/-- A label of a name stands at a position. -/
def LabelAt (fn : Function) (t : ℕ) (name : String) : Prop :=
  (fn.insn t).op = .label ∧ (fn.insn t).text = some name

theorem insn_of_length_le {k : ℕ} (h : fn.instructions.length ≤ k) : fn.insn k = {} := by
  exact getD_eq_default _ _ h

variable {t : ℕ} {name : String}

theorem LabelAt.lt (h : fn.LabelAt t name) : t < fn.instructions.length := by
  by_contra hle
  have hop := h.1
  rw [insn_of_length_le (by omega)] at hop
  cases hop

/-- The search finds the first label of the name. -/
theorem findLabel_eq_some_iff :
    fn.findLabel (some name) = some t ↔ fn.LabelAt t name ∧ ∀ k < t, ¬ fn.LabelAt k name := by
  unfold findLabel LabelAt
  rw [bind_some, findIdx?_eq_some_iff_getElem]
  constructor
  · rintro ⟨hlt, hp, hbefore⟩
    refine ⟨?_, fun k hk hlabel => ?_⟩
    · rw [getElem_insn fn hlt] at hp
      exact of_decide_eq_true hp
    · apply hbefore k hk
      rw [getElem_insn fn (by omega)]
      exact decide_eq_true hlabel
  · rintro ⟨hlabel, hbefore⟩
    have hlt : t < fn.instructions.length := LabelAt.lt hlabel
    refine ⟨hlt, ?_, fun k hk hp => ?_⟩
    · rw [getElem_insn fn hlt]
      exact decide_eq_true hlabel
    · rw [getElem_insn fn (by omega)] at hp
      exact hbefore k hk (of_decide_eq_true hp)

/-- It finds nothing exactly when there is no label of the name. -/
theorem findLabel_eq_none_iff : fn.findLabel (some name) = none ↔ ∀ k, ¬ fn.LabelAt k name := by
  constructor
  · intro h k hk
    unfold findLabel at h
    rw [bind_some, findIdx?_eq_none_iff] at h
    have := h (fn.insn k) (by
      rw [← getElem_insn fn hk.lt]
      exact getElem_mem _)
    simp only [decide_eq_false_iff_not] at this
    exact this hk
  · intro h
    cases hfind : fn.findLabel (some name) with
    | none => rfl
    | some t => exact absurd (findLabel_eq_some_iff.mp hfind).1 (h t)

/-- A label that is the only one of its name is found where it is placed. -/
theorem findLabel_placed {place : ℕ → ℕ} (honly : ∀ k t, fn.LabelAt k name → fn.LabelAt t name → k = t)
    (hplace : ∀ t, out.LabelAt t name ↔ ∃ k, place k = t ∧ fn.LabelAt k name) :
    out.findLabel (some name) = (fn.findLabel (some name)).map place := by
  cases hfind : fn.findLabel (some name) with
  | none =>
    rw [map_none, findLabel_eq_none_iff]
    intro t ht
    obtain ⟨k, -, hk⟩ := (hplace t).mp ht
    exact findLabel_eq_none_iff.mp hfind k hk
  | some t =>
    have hat := (findLabel_eq_some_iff.mp hfind).1
    rw [map_some, findLabel_eq_some_iff]
    refine ⟨(hplace _).mpr ⟨t, rfl, hat⟩, fun u hu hlabel => ?_⟩
    obtain ⟨k, rfl, hk⟩ := (hplace u).mp hlabel
    rw [honly k t hk hat] at hu
    exact lt_irrefl _ hu

/-- As many instructions as the range has. -/
theorem slice_length {start stop : ℕ} (hlen : stop ≤ fn.instructions.length) :
    (fn.slice start stop).length = stop - start := by
  unfold slice
  rw [length_take, length_drop]
  omega

/-- The instructions of a range are those of the function, moved. -/
theorem slice_getD {start stop k : ℕ} (h : start + k < stop) :
    (fn.slice start stop).getD k {} = fn.insn (start + k) := by
  unfold slice insn
  rw [getD_eq_getElem?_getD, List.getElem?_take, if_pos (by omega), List.getElem?_drop,
    getD_eq_getElem?_getD]

/-! ## Insertion -/

/-- Instructions inserted before an index, `ir_instruction_insert_move` for each. -/
def insertAt (fn : Function) (index : ℕ) (new : List Inst) : Function :=
  { fn with instructions := fn.instructions.take index ++ new ++ fn.instructions.drop index }

section

variable {index k : ℕ} {new : List Inst}

/-- An insertion makes the function longer by what is inserted. -/
theorem length_insertAt : (fn.insertAt index new).instructions.length = fn.instructions.length + new.length := by
  simp only [insertAt, length_append, length_take, length_drop]
  omega

/-- The instructions before the place stay. -/
theorem insn_insertAt_before (hlen : index ≤ fn.instructions.length) (h : k < index) :
    (fn.insertAt index new).insn k = fn.insn k := by
  unfold insn insertAt
  rw [append_assoc, getD_append _ _ _ _ (by rw [length_take]; omega), getD_eq_getElem?_getD,
    List.getElem?_take, if_pos h, getD_eq_getElem?_getD]

/-- At the place there is what was inserted. -/
theorem insn_insertAt_new (hlen : index ≤ fn.instructions.length) (h : k < new.length) :
    (fn.insertAt index new).insn (index + k) = new.getD k {} := by
  have htake : (fn.instructions.take index).length = index := by
    rw [length_take]
    omega
  unfold insn insertAt
  rw [append_assoc, getD_append_right _ _ _ _ (by omega), htake, Nat.add_sub_cancel_left,
    getD_append _ _ _ _ h]

/-- The instructions behind the place move back. -/
theorem insn_insertAt_after (hlen : index ≤ fn.instructions.length) (h : index ≤ k) :
    (fn.insertAt index new).insn (k + new.length) = fn.insn k := by
  have htake : (fn.instructions.take index ++ new).length = index + new.length := by
    rw [length_append, length_take]
    omega
  unfold insn insertAt
  rw [getD_append_right _ _ _ _ (by omega), htake, getD_eq_getElem?_getD, List.getElem?_drop,
    getD_eq_getElem?_getD]
  congr 2
  omega

end

/-- Instructions from one index to another rewritten in place. -/
def mapRange (fn : Function) (start stop : ℕ) (f : Inst → Inst) : Function :=
  { fn with instructions := fn.instructions.mapIdx fun k i => if start ≤ k ∧ k < stop then f i else i }

section

variable {start stop k : ℕ} {f : Inst → Inst}

/-- Changing instructions in place keeps how many there are. -/
@[simp] theorem length_mapRange :
    (fn.mapRange start stop f).instructions.length = fn.instructions.length := by
  simp [mapRange]

/-- Only those in the range are changed. -/
theorem insn_mapRange (hlen : stop ≤ fn.instructions.length) :
    (fn.mapRange start stop f).insn k = if start ≤ k ∧ k < stop then f (fn.insn k) else fn.insn k := by
  unfold insn mapRange
  rw [getD_eq_getElem?_getD, List.getElem?_mapIdx, getD_eq_getElem?_getD]
  rcases Nat.lt_or_ge k fn.instructions.length with hk | hk
  · rw [List.getElem?_eq_getElem hk]
    rfl
  · rw [List.getElem?_eq_none hk, if_neg (by omega)]
    rfl

end

end Function

end Mettle.Ir

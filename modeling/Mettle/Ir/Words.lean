import Mettle.Ir.Straight

/-!
# Words

What integer instructions do, in terms of the 64-bit words of their operands. Whether a word counts as
undefined is left open.
-/

open List Option

namespace Mettle.Ir

variable {W : Type} {H : Host W} {fn : Function} {s s' : State W} {i : Inst}

namespace State

/-- The operand is an integer with these bits. -/
def HasWord (H : Host W) (s : State W) (o : Operand) (w : BitVec 64) : Prop :=
  ∃ v, s.fetch H o = some v ∧ v.isFloat = false ∧ v.i = w

theorem hasWord_ofInt (w : BitVec 64) : s.HasWord H (.ofInt w) w := ⟨.ofInt w, rfl, rfl, rfl⟩

theorem hasWord_int {o : Operand} (h : o.kind = .int) : s.HasWord H o o.intValue := by
  refine ⟨.ofInt o.intValue, ?_, rfl, rfl⟩
  unfold fetch
  rw [h]

/-- A temporary or symbol is read by its kind and name. -/
theorem fetch_congr {a b : Operand} (hkind : a.kind = b.kind) (hname : a.name = b.name)
    (hvar : a.kind = .temp ∨ a.kind = .symbol) : s.fetch H a = s.fetch H b := by
  unfold fetch
  rcases hvar with h | h
  · rw [← hkind, h, hname]
  · rw [← hkind, h, hname]

/-- The word of an operand depends on its value. -/
theorem HasWord.congr {o : Operand} {w : BitVec 64} (h : s.HasWord H o w)
    (hfetch : s'.fetch H o = s.fetch H o) : s'.HasWord H o w := by
  obtain ⟨v, hv, hfloat, hi⟩ := h
  exact ⟨v, hfetch.trans hv, hfloat, hi⟩

/-- An operand has one word. -/
theorem HasWord.unique {o : Operand} {w w' : BitVec 64} (h : s.HasWord H o w) (h' : s.HasWord H o w') :
    w = w' := by
  obtain ⟨v, hv, -, rfl⟩ := h
  obtain ⟨v', hv', -, rfl⟩ := h'
  rw [hv] at hv'
  rw [some.inj hv']

/-- A write of a temporary leaves every other operand. -/
theorem fetch_of_storeDest_temp {o d : Operand} {v : Value} (hk : d.kind = .temp)
    (hstore : s.storeDest H d v = some s') (ho : ∀ x, o.var = some x → d.var ≠ some x) :
    s'.fetch H o = s.fetch H o :=
  fetch_agree (agreeOff_storeDest hk hstore) ho

end State

open State

/-- An operation that executes has found its operands. -/
theorem fetch_of_exec_binary (hop : i.op = .binary) (hexec : s.exec H fn i = some s') :
    ∃ a b, s.fetch H i.lhs = some a ∧ s.fetch H i.rhs = some b := by
  unfold State.exec at hexec
  rw [if_neg (by rw [hop]; decide), State.effect, hop, bind_eq_some_iff] at hexec
  obtain ⟨r, heffect, -⟩ := hexec
  simp only [bind_eq_bind, bind_eq_some_iff] at heffect
  obtain ⟨a, ha, b, hb, -⟩ := heffect
  exact ⟨a, b, ha, hb⟩

/-- An integer operation on values. -/
theorem exec_binary_of_fetch (hop : i.op = .binary) (hconcat : i.isConcat = false)
    (hfloat : i.isFloat = false) {a b r : Value} (ha : s.fetch H i.lhs = some a)
    (hb : s.fetch H i.rhs = some b)
    (hr : binaryInt (i.text.getD "?") i.isUnsigned (H.floats.asInt a) (H.floats.asInt b) = some r) :
    s.exec H fn i = s.storeDest H i.dest { r with undefined := a.undefined || b.undefined } := by
  have hbinary : H.binary s.world i a b = some (r, s.world) := by
    simp only [Host.binary, hconcat, hfloat, Bool.false_eq_true, if_false]
    rw [hr, map_some]
  unfold State.exec
  rw [if_neg (by rw [hop]; decide), State.effect, hop]
  simp only [ha, hb, hbinary, bind_eq_bind, bind_some]
  simp only [Inst.results, hop, zip_cons_cons, zip_nil_right, State.storeAll]
  exact bind_fun_some _

/-- An integer operation on words. -/
theorem exec_binary_word (hop : i.op = .binary) (hconcat : i.isConcat = false)
    (hfloat : i.isFloat = false) {a b r : BitVec 64} (ha : s.HasWord H i.lhs a)
    (hb : s.HasWord H i.rhs b)
    (hr : binaryInt (i.text.getD "?") i.isUnsigned a b = some (.ofInt r)) :
    ∃ v, s.exec H fn i = s.storeDest H i.dest v ∧ v.isFloat = false ∧ v.i = r := by
  obtain ⟨x, hx, hxf, rfl⟩ := ha
  obtain ⟨y, hy, hyf, rfl⟩ := hb
  refine ⟨_, exec_binary_of_fetch (r := .ofInt r) hop hconcat hfloat hx hy ?_, rfl, rfl⟩
  simp only [FloatOps.asInt, hxf, hyf, Bool.false_eq_true, if_false]
  exact hr

/-- The assignment of an integer literal. -/
theorem exec_assign_literal (hop : i.op = .assign) {c : BitVec 64} (hlhs : i.lhs = .ofInt c) :
    s.exec H fn i = s.storeDest H i.dest (.ofInt c) := by
  have hassigned : s.assigned H i = some (.ofInt c) := by
    unfold State.assigned
    rw [hlhs, if_neg (by simp [Operand.ofInt])]
    rfl
  unfold State.exec
  rw [if_neg (by rw [hop]; decide), State.effect, hop]
  simp only [hassigned, map_some, bind_some, Inst.results, hop, zip_cons_cons,
    zip_nil_right, State.storeAll]
  exact bind_fun_some _

/-- The assignment of a word. -/
theorem exec_assign_word (hop : i.op = .assign) (hkind : i.lhs.kind ≠ .string) {a : BitVec 64}
    (ha : s.HasWord H i.lhs a) :
    ∃ v, s.exec H fn i = s.storeDest H i.dest v ∧ v.isFloat = false ∧ v.i = a := by
  obtain ⟨v, hv, hfloat, hi⟩ := ha
  have hassigned : s.assigned H i = some v := by
    unfold State.assigned
    rw [if_neg fun h => hkind h.1]
    exact hv
  refine ⟨v, ?_, hfloat, hi⟩
  unfold State.exec
  rw [if_neg (by rw [hop]; decide), State.effect, hop]
  simp only [hassigned, map_some, bind_some, Inst.results, hop, zip_cons_cons,
    zip_nil_right, State.storeAll]
  exact bind_fun_some _

/-- Two instructions that store the same word in the same place. -/
def StoresSame (H : Host W) (fn : Function) (s : State W) (i i' : Inst) : Prop :=
  i'.dest = i.dest ∧ ∃ v v', s.exec H fn i = s.storeDest H i.dest v ∧
    s.exec H fn i' = s.storeDest H i.dest v' ∧ v.isFloat = false ∧ v'.isFloat = false ∧ v'.i = v.i

theorem truth_of_word {v : Value} (h : v.isFloat = false) : v.truth = decide (v.i ≠ 0) := by
  unfold Value.truth
  rw [h]
  rfl

/-- A branch on a word that is not zero falls through. -/
theorem step_branchZero_of_ne {pc : ℕ} {w : BitVec 64} (hpc : pc < fn.instructions.length)
    (hop : (fn.insn pc).op = .branchZero) (hw : s.HasWord H (fn.insn pc).lhs w) (hne : w ≠ 0) :
    step H fn (.at pc s) = some (.at (pc + 1) s) := by
  obtain ⟨v, hv, hfloat, rfl⟩ := hw
  simp only [step, if_neg (show ¬ fn.instructions.length ≤ pc by omega), hop, hv, bind_eq_bind,
    bind_some, truth_of_word hfloat]
  rw [if_pos (by simpa using hne)]

/-- A branch on zero is taken. -/
theorem step_branchZero_of_eq {pc : ℕ} (hpc : pc < fn.instructions.length)
    (hop : (fn.insn pc).op = .branchZero) (hw : s.HasWord H (fn.insn pc).lhs 0) :
    step H fn (.at pc s) = (fn.findLabel (fn.insn pc).text).map fun target => .at target s := by
  obtain ⟨v, hv, hfloat, hi⟩ := hw
  simp only [step, if_neg (show ¬ fn.instructions.length ≤ pc by omega), hop, hv, bind_eq_bind,
    bind_some, truth_of_word hfloat]
  rw [if_neg (by simp [hi])]

/-- A branch on the equality of two words. -/
theorem step_branchEq_word {pc : ℕ} {a b : BitVec 64} (hpc : pc < fn.instructions.length)
    (hop : (fn.insn pc).op = .branchEq) (ha : s.HasWord H (fn.insn pc).lhs a)
    (hb : s.HasWord H (fn.insn pc).rhs b) :
    step H fn (.at pc s) =
      if a = b then (fn.findLabel (fn.insn pc).text).map fun target => .at target s
      else some (.at (pc + 1) s) := by
  obtain ⟨x, hx, hxf, rfl⟩ := ha
  obtain ⟨y, hy, hyf, rfl⟩ := hb
  have heq : s.branchEq H (fn.insn pc) = some (decide (x.i = y.i)) := by
    simp [State.branchEq, hx, hy, hxf, hyf]
  simp only [step, if_neg (show ¬ fn.instructions.length ≤ pc by omega), hop, heq, bind_eq_bind,
    bind_some, decide_eq_true_eq]

/-- Narrowing keeps a truth value. -/
theorem narrowInt_bool (b : Bool) (size : ℤ) (isUnsigned : Bool) :
    narrowInt (if b then 1 else 0) size isUnsigned = if b then 1 else 0 := by
  unfold narrowInt
  cases b <;> cases isUnsigned <;> split <;> first | rfl | (split <;> first | rfl | (split <;> rfl))

/-- A temporary of any width reads back a truth value. -/
theorem hasWord_storeDest_bool {d : Operand} (hd : d.isTemp = true) {v : Value} {b : Bool}
    (hfloat : v.isFloat = false) (hi : v.i = if b then 1 else 0) :
    ∃ s', s.storeDest H d v = some s' ∧ s'.HasWord H d (if b then 1 else 0) := by
  unfold Operand.isTemp at hd
  rw [decide_eq_true_eq] at hd
  obtain ⟨x, hx⟩ := isSome_iff_exists.mp hd.2
  refine ⟨_, storeDest_temp hd.1 hx v, ?_⟩
  refine ⟨(((s.env x).getD { value := .poison }).write H.floats v).value, ?_, ?_, ?_⟩
  · simp [fetch, hd.1, hx]
  · simp only [Var.write]
    split
    · exact hfloat
    · split <;> exact hfloat
  · simp only [Var.write]
    split
    · show narrowInt v.i _ _ = _
      rw [hi, narrowInt_bool]
    · rw [if_neg (by simp [hfloat])]
      exact hi

/-- A temporary that is not narrow reads back any word. -/
theorem hasWord_storeDest_wide {x : String} (hs : s.Widths H fn) (hx : Wide H fn x) {v : Value}
    (hfloat : v.isFloat = false) :
    ∃ s', s.storeDest H (.ofTemp x) v = some s' ∧ s'.HasWord H (.ofTemp x) v.i ∧ s'.Widths H fn ∧
      ∀ o : Operand, o.var ≠ some x → s'.fetch H o = s.fetch H o := by
  have hstore : ∃ s', s.storeDest H (.ofTemp x) v = some s' := ⟨_, storeDest_temp rfl rfl v⟩
  obtain ⟨s', hs'⟩ := hstore
  refine ⟨s', hs', ⟨v, ?_, hfloat, rfl⟩, storeDest_widths hs hs', fun o ho => ?_⟩
  · refine fetch_storeDest hs hs' (by simp [Operand.ofTemp]) (fun y hy => ?_) fun y hy => ?_
    · obtain rfl : x = y := by simpa [Operand.var, Operand.ofTemp] using hy
      exact hx
    · simp [Operand.ofTemp] at hy
  · refine fetch_of_storeDest_temp rfl hs' fun y hy hd => ho ?_
    obtain rfl : x = y := by simpa [Operand.var, Operand.ofTemp] using hd
    exact hy

end Mettle.Ir

import Mettle.Ir.Machine

/-!
# What an instruction leaves alone

An instruction writes its result operands, and through a pointer only memory whose address is taken.
`Host.Lawful` says so much of the host; from it, a step keeps the variables that it does not name
(`exec_same`) and the widths of the frame (`exec_widths`).
-/

open List Option Function

namespace Mettle.Ir

/-- The opcodes left to `Host.kernel`. -/
def Opcode.isKernel : Opcode → Bool
  | .nop | .label | .prefetch | .safetyCheck | .assign | .addressOf | .load | .store | .binary | .unary
  | .rotateAdd | .cast | .select | .new | .call | .callIndirect | .inlineAsm | .phi | .jump
  | .branchZero | .branchEq | .return | .declareLocal => false
  | _ => true

/-- An instruction whose effect may change the host. -/
def Inst.changesHost (i : Inst) : Bool :=
  i.op.isKernel || i.op ∈ ([.store, .new, .call, .callIndirect] : List Opcode) ||
    (i.op = .binary && i.isConcat)

/-- The operands an instruction writes, a declaration included. -/
def Inst.written (i : Inst) : List Operand := if i.op = .declareLocal then [i.dest] else i.results

/-- An instruction writes a variable of that name, as a temporary or as a symbol. -/
def Inst.writesName (i : Inst) (x : String) : Bool := i.written.any fun o => o.var = some x

/-- `ir_operand_is_aliasable_symbol`. -/
def Operand.isAliasable (addrTaken : String → Bool) (o : Operand) : Bool :=
  o.kind = .symbol ∧ o.name.any addrTaken

variable {W : Type} {H : Host W}

/-- The host keeps a symbol. -/
def Host.Keeps (H : Host W) (w w' : W) (x : String) : Prop :=
  H.loadVar w' x = H.loadVar w x ∧ H.addressOf w' x = H.addressOf w x

/-- A host that keeps the symbols an operation has nothing to do with: a write reaches the symbol it
names, an allocation none, and a store or a kernel those whose address is taken. -/
structure Host.Lawful (H : Host W) (addrTaken : String → Bool) : Prop where
  storeVar : ∀ {w x v w' y}, H.storeVar w x v = some w' → y ≠ x → H.Keeps w w' y
  declareVar : ∀ {w i w' y}, H.declareVar w i = some w' → i.dest.name ≠ some y → H.Keeps w w' y
  concat : ∀ {w a b r w' y}, H.concat w a b = some (r, w') → H.Keeps w w' y
  new : ∀ {w size a w' y}, H.new w size = some (a, w') → H.Keeps w w' y
  store : ∀ {w i a size v x w' y}, H.store w i a size v x = some w' → addrTaken y = false →
    H.Keeps w w' y
  kernel : ∀ {w i args vs w' y}, H.kernel w i args = some (vs, w') → addrTaken y = false →
    H.Keeps w w' y

/-- Arithmetic in which every result is a positive zero, for functions without floats. -/
def FloatOps.zero : FloatOps where
  add := fun _ _ => 0
  sub := fun _ _ => 0
  mul := fun _ _ => 0
  div := fun _ _ => 0
  addSingle := fun _ _ => 0
  subSingle := fun _ _ => 0
  mulSingle := fun _ _ => 0
  divSingle := fun _ _ => 0
  neg := fun _ => 0
  negSingle := fun _ => 0
  lt := fun _ _ => false
  le := fun _ _ => false
  ofInt := fun _ => 0
  ofUnsigned := fun _ => 0
  toInt := fun _ => 0
  toUnsigned := fun _ => 0
  roundSingle := fun _ => 0
  roundHalf := fun _ => 0
  roundBfloat := fun _ => 0
  add_comm := fun _ _ => rfl
  mul_comm := fun _ _ => rfl
  addSingle_comm := fun _ _ => rfl
  mulSingle_comm := fun _ _ => rfl

/-- A host for functions of integers: no globals, no memory and no calls. -/
def Host.scalars : Host Unit where
  floats := .zero
  literal := fun _ => (0, 0)
  loadVar := fun _ _ => none
  storeVar := fun _ _ _ => none
  addressOf := fun _ _ => none
  lookupType := fun _ => none
  declareVar := fun _ _ => none
  concat := fun _ _ _ => none
  load := fun _ _ _ _ => none
  store := fun _ _ _ _ _ _ => none
  new := fun _ _ => none
  call := fun _ _ _ => none
  callIndirect := fun _ _ _ _ => none
  kernel := fun _ _ _ => none

/-- A host without variables of its own is lawful. -/
theorem Host.scalars_lawful (addrTaken : String → Bool) : Host.scalars.Lawful addrTaken where
  storeVar := fun h => by cases h
  declareVar := fun h => by cases h
  concat := fun h => by cases h
  new := fun h => by cases h
  store := fun h => by cases h
  kernel := fun h => by cases h

theorem Host.Keeps.refl (H : Host W) (w : W) (x : String) : H.Keeps w w x := ⟨rfl, rfl⟩

theorem Host.Keeps.trans {w₁ w₂ w₃ : W} {x : String} (h : H.Keeps w₁ w₂ x) (h' : H.Keeps w₂ w₃ x) :
    H.Keeps w₁ w₃ x :=
  ⟨h'.1.trans h.1, h'.2.trans h.2⟩

/-- Two states agree on an operand. -/
def State.Same (H : Host W) (s s' : State W) (o : Operand) : Prop :=
  ∀ x, o.var = some x → s'.env x = s.env x ∧ (o.kind = .symbol → H.Keeps s.world s'.world x)

namespace State

variable {s s' s'' : State W} {o : Operand} {i : Inst} {fn : Function} {addrTaken : String → Bool}

theorem Same.refl (H : Host W) (s : State W) (o : Operand) : Same H s s o :=
  fun x _ => ⟨rfl, fun _ => Host.Keeps.refl H s.world x⟩

theorem Same.trans (h : Same H s s' o) (h' : Same H s' s'' o) : Same H s s'' o := by
  intro x hx
  obtain ⟨henv, hworld⟩ := h x hx
  obtain ⟨henv', hworld'⟩ := h' x hx
  exact ⟨henv'.trans henv, fun hk => (hworld hk).trans (hworld' hk)⟩

variable {w : W} {vs : List Value}

/-- A change of the host that keeps the symbols. -/
theorem same_of_keeps (h : ∀ x, o.kind = .symbol → o.name = some x → H.Keeps s.world w x) :
    Same H s { s with world := w } o := by
  intro x hx
  refine ⟨rfl, fun hk => h x hk ?_⟩
  unfold Operand.var at hx
  rwa [if_pos (Or.inr hk)] at hx

theorem fetch_same (h : Same H s s' o) : s'.fetch H o = s.fetch H o := by
  unfold fetch
  cases hk : o.kind with
  | temp | symbol =>
    cases hname : o.name with
    | none => rfl
    | some x =>
      obtain ⟨henv, hworld⟩ := h x (by simp [Operand.var, hk, hname])
      simp only [henv]
      cases s.env x with
      | some var => rfl
      | none => simp [hk, (hworld · |>.1)]
  | none | int | float | string | label => rfl

theorem addressOf_same (h : Same H s s' o) : s'.addressOf H o = s.addressOf H o := by
  unfold addressOf
  by_cases hk : o.kind = .symbol
  · rw [if_neg (not_not_intro hk), if_neg (not_not_intro hk)]
    cases hname : o.name with
    | none => rfl
    | some x =>
      obtain ⟨henv, hworld⟩ := h x (by simp [Operand.var, hk, hname])
      simp only [bind_some, henv]
      cases s.env x with
      | some var => rfl
      | none => exact (hworld hk).2
  · rw [if_pos hk, if_pos hk]

/-! ## Writes -/

/-- A write keeps the operands of other names. -/
theorem storeDest_same (hlaw : H.Lawful addrTaken) {d : Operand} {v : Value}
    (h : s.storeDest H d v = some s') (hne : ∀ x, o.var = some x → d.var ≠ some x) :
    Same H s s' o := by
  unfold storeDest at h
  intro x hx
  have hdx := hne x hx
  split at h
  · cases h
    exact Same.refl H s o x hx
  · rename_i y hkind hname
    cases h
    have hxy : x ≠ y := by
      rintro rfl
      simp [Operand.var, hkind, hname] at hdx
    exact ⟨update_of_ne hxy _ _, fun _ => Host.Keeps.refl H _ x⟩
  · rename_i y hkind hname
    have hxy : x ≠ y := by
      rintro rfl
      simp [Operand.var, hkind, hname] at hdx
    split at h
    · cases h
      exact ⟨update_of_ne hxy _ _, fun _ => Host.Keeps.refl H _ x⟩
    · rw [map_eq_some_iff] at h
      obtain ⟨w, hw, rfl⟩ := h
      exact ⟨rfl, fun _ => hlaw.storeVar hw hxy⟩
  · cases h

/-- Stores to other variables keep it. -/
theorem storeAll_same (hlaw : H.Lawful addrTaken) {writes : List (Operand × Value)}
    (h : s.storeAll H writes = some s')
    (hne : ∀ x, o.var = some x → ∀ w ∈ writes, w.1.var ≠ some x) : Same H s s' o := by
  induction writes generalizing s with
  | nil =>
    obtain rfl := some.inj h
    exact Same.refl H s o
  | cons w rest ih =>
    rw [storeAll, bind_eq_some_iff] at h
    obtain ⟨s₁, hfirst, hrest⟩ := h
    refine (storeDest_same hlaw hfirst fun x hx => hne x hx w mem_cons_self).trans ?_
    exact ih hrest fun x hx w hw => hne x hx w (mem_cons_of_mem _ hw)

/-- The effect of a kernel operation is the host's. -/
theorem effect_kernel (h : i.op.isKernel = true) (s : State W) :
    s.effect H i = H.kernel s.world i.shape ((i.dest :: i.lhs :: i.rhs :: i.arguments).map (s.fetch H)) := by
  unfold effect
  cases hop : i.op <;> first | rfl | (rw [hop] at h; cases h)

/-- The effect of the other instructions leaves the host as it is. -/
theorem effect_world (hpure : i.changesHost = false) (h : s.effect H i = some (vs, w)) : w = s.world := by
  unfold Inst.changesHost at hpure
  unfold effect at h
  cases hop : i.op <;> rw [hop] at hpure h
  all_goals try (cases hpure; done)
  all_goals simp only [bind_eq_bind, map_eq_some_iff, bind_eq_some_iff,
    some.injEq, Prod.mk.injEq, reduceCtorEq] at h
  case binary =>
    obtain ⟨a, -, b, -, ⟨v, w'⟩, hbin, -, rfl⟩ := h
    have hconcat : i.isConcat = false := by simpa [Opcode.isKernel] using hpure
    unfold Host.binary at hbin
    rw [hconcat, if_neg Bool.false_ne_true] at hbin
    split at hbin <;> simp only [map_eq_some_iff, Prod.mk.injEq] at hbin <;>
      obtain ⟨_, -, -, rfl⟩ := hbin <;> rfl
  case nop | label | prefetch | safetyCheck => exact h.2.symm
  case assign | addressOf | select =>
    obtain ⟨_, -, -, rfl⟩ := h
    rfl
  case unary | rotateAdd | cast =>
    obtain ⟨_, -, _, -, -, rfl⟩ := h
    rfl
  case load =>
    obtain ⟨_, -, _, -, _, -, -, rfl⟩ := h
    rfl

/-- The host after the effect of an instruction that is no call. -/
theorem effect_keeps (hlaw : H.Lawful addrTaken) {x : String} (h : s.effect H i = some (vs, w))
    (hcall : i.op ≠ .call ∧ i.op ≠ .callIndirect) (hmem : i.op = .store ∨ i.op.isKernel = true → addrTaken x = false) :
    H.Keeps s.world w x := by
  by_cases hkernel : i.op.isKernel = true
  · rw [effect_kernel hkernel] at h
    exact hlaw.kernel h (hmem (Or.inr hkernel))
  by_cases hpure : i.changesHost = false
  · rw [effect_world hpure h]
    exact Host.Keeps.refl H _ x
  have hop : i.op = .store ∨ i.op = .new ∨ i.op = .binary := by
    simp only [Inst.changesHost, hkernel, Bool.false_or, Bool.not_eq_false, Bool.or_eq_true,
      Bool.and_eq_true, decide_eq_true_eq, mem_cons, not_mem_nil, or_false] at hpure
    rcases hpure with (hop | hop | hop | hop) | hop
    · exact Or.inl hop
    · exact Or.inr (Or.inl hop)
    · exact absurd hop hcall.1
    · exact absurd hop hcall.2
    · exact Or.inr (Or.inr hop.1)
  unfold effect at h
  rcases hop with hop | hop | hop <;> rw [hop] at h <;>
    simp only [bind_eq_bind, bind_eq_some_iff, some.injEq, Prod.mk.injEq] at h
  · obtain ⟨a, -, size, -, v, -, w', hstore, -, rfl⟩ := h
    exact hlaw.store hstore (hmem (Or.inl hop))
  · obtain ⟨size, -, ⟨a, w'⟩, hnew, -, rfl⟩ := h
    exact hlaw.new hnew
  · obtain ⟨a, -, b, -, ⟨v, w'⟩, hbin, -, rfl⟩ := h
    unfold Host.binary at hbin
    split at hbin
    · simp only [map_eq_some_iff, Prod.mk.injEq] at hbin
      obtain ⟨⟨r, w''⟩, hcat, -, rfl⟩ := hbin
      exact hlaw.concat hcat
    · split at hbin <;> simp only [map_eq_some_iff, Prod.mk.injEq] at hbin <;>
        obtain ⟨_, -, -, rfl⟩ := hbin <;> exact Host.Keeps.refl H _ x

/-- A step that falls through keeps an operand that it neither names nor reaches through memory. -/
theorem exec_same (hlaw : H.Lawful addrTaken) (h : s.exec H fn i = some s')
    (hcall : i.op ≠ .call ∧ i.op ≠ .callIndirect)
    (hne : ∀ x, o.var = some x → i.writesName x = false)
    (hmem : i.op = .store ∨ i.op.isKernel = true → o.isAliasable addrTaken = false) :
    Same H s s' o := by
  -- the operand is no destination, so only the host could change its variable
  have hwritten : ∀ x, o.var = some x → ∀ d ∈ i.written, d.var ≠ some x := by
    intro x hx d hd heq
    have := hne x hx
    unfold Inst.writesName at this
    rw [List.any_eq_false] at this
    exact this d hd (by simpa using heq)
  unfold exec at h
  unfold Inst.written at hwritten
  split at h
  · rename_i hdecl
    rw [if_pos hdecl] at hwritten
    unfold declareLocal at h
    split at h
    · cases h
    · rename_i hkind
      rw [bind_eq_some_iff] at h
      obtain ⟨y, hname, hdeclared⟩ := h
      intro x hx
      have hxy : x ≠ y := by
        rintro rfl
        exact hwritten x hx i.dest (by simp) (by simp [Operand.var, hkind, hname])
      split at hdeclared
      · cases hdeclared
        exact ⟨update_of_ne hxy _ _, fun _ => Host.Keeps.refl H _ x⟩
      · rw [map_eq_some_iff] at hdeclared
        obtain ⟨w, hw, rfl⟩ := hdeclared
        refine ⟨update_of_ne hxy _ _, fun _ => hlaw.declareVar hw ?_⟩
        rw [hname]
        exact fun heq => hxy (some.inj heq).symm
  · rename_i hdecl
    rw [if_neg hdecl] at hwritten
    rw [bind_eq_some_iff] at h
    obtain ⟨⟨vs, w⟩, heffect, hstore⟩ := h
    refine Same.trans (same_of_keeps fun x hk hname => ?_) (storeAll_same hlaw hstore fun x hx e he =>
      hwritten x hx e.1 (of_mem_zip he).1)
    refine effect_keeps hlaw heffect hcall fun hop => ?_
    have := hmem hop
    unfold Operand.isAliasable at this
    simpa [hk, hname] using this

end State

/-! ## Widths -/

/-- A width that a write does not narrow to. -/
def wideSize (size : ℤ) : Bool := size ≠ -4 ∧ (size ≤ 0 ∨ 8 ≤ size)

/-- A variable of 64 bits holds what is written. -/
theorem Var.write_wide {F : FloatOps} {var : Var} (h : wideSize var.size = true) (v : Value) :
    (var.write F v).value = v := by
  unfold wideSize at h
  rw [decide_eq_true_eq] at h
  unfold Var.write
  rw [if_neg (by omega), if_neg (fun hsingle => h.1 hsingle.2)]

/-- The variables of a name are eight bytes wide or untyped, wherever the frame gets one. -/
structure Wide (H : Host W) (fn : Function) (x : String) : Prop where
  declared : ∀ i ∈ fn.instructions, i.op = .declareLocal → i.dest.name = some x →
    ∀ var ∈ H.declaredVar fn i x, wideSize var.size = true
  parameter : ∀ k, fn.parameterNames[k]? = some x → wideSize (fn.parameterWidth k).1 = true

/-- The state at the entry of a function: its parameters are the variables of the frame. -/
def Function.Entry (fn : Function) (s : State W) : Prop :=
  ∀ x var, s.env x = some var → ∃ k, fn.parameterNames[k]? = some x ∧ var.size = (fn.parameterWidth k).1

namespace State

variable {s s' : State W} {i : Inst} {fn : Function}

/-- The frame keeps to the declared widths. -/
def Widths (H : Host W) (fn : Function) (s : State W) : Prop :=
  ∀ x var, s.env x = some var → Wide H fn x → wideSize var.size = true

/-- At the entry the widths are those that are declared. -/
theorem widths_entry (h : fn.Entry s) : s.Widths H fn := by
  intro x var hvar hwide
  obtain ⟨k, hk, hsize⟩ := h x var hvar
  rw [hsize]
  exact hwide.parameter k hk

variable {d : Operand} {v : Value}

/-- A write makes a variable of no width or keeps the width. -/
theorem storeDest_size (h : s.storeDest H d v = some s') {x : String} {var : Var} (hvar : s'.env x = some var) :
    (∃ old, s.env x = some old ∧ old.size = var.size) ∨ var.size = 0 := by
  unfold storeDest at h
  split at h
  · cases h
    exact Or.inl ⟨var, hvar, rfl⟩
  · rename_i y hkind hname
    cases h
    simp only [update_apply] at hvar
    split at hvar
    · rename_i hxy
      cases hvar
      rw [hxy]
      cases s.env y with
      | none => exact Or.inr rfl
      | some old => exact Or.inl ⟨old, rfl, rfl⟩
    · exact Or.inl ⟨var, hvar, rfl⟩
  · rename_i y hkind hname
    split at h
    · rename_i old hold
      cases h
      simp only [update_apply] at hvar
      split at hvar
      · rename_i hxy
        cases hvar
        exact Or.inl ⟨old, hxy ▸ hold, rfl⟩
      · exact Or.inl ⟨var, hvar, rfl⟩
    · rw [map_eq_some_iff] at h
      obtain ⟨w, -, rfl⟩ := h
      exact Or.inl ⟨var, hvar, rfl⟩
  · cases h

/-- A store keeps the widths. -/
theorem storeDest_widths (hs : s.Widths H fn) (h : s.storeDest H d v = some s') : s'.Widths H fn := by
  intro x var hvar hwide
  rcases storeDest_size h hvar with ⟨old, hold, hsize⟩ | hzero
  · rw [← hsize]
    exact hs x old hold hwide
  · rw [hzero]
    rfl

/-- So do several. -/
theorem storeAll_widths {writes : List (Operand × Value)} (hs : s.Widths H fn)
    (h : s.storeAll H writes = some s') : s'.Widths H fn := by
  induction writes generalizing s with
  | nil =>
    cases h
    exact hs
  | cons w rest ih =>
    rw [storeAll, bind_eq_some_iff] at h
    obtain ⟨s₁, hfirst, hrest⟩ := h
    exact ih (storeDest_widths hs hfirst) hrest

/-- A step keeps to the declared widths. -/
theorem exec_widths (hi : i ∈ fn.instructions) (hs : s.Widths H fn) (h : s.exec H fn i = some s') :
    s'.Widths H fn := by
  unfold exec at h
  split at h
  · rename_i hdecl
    unfold declareLocal at h
    split at h
    · cases h
    · rw [bind_eq_some_iff] at h
      obtain ⟨y, hname, hdeclared⟩ := h
      split at hdeclared
      · rename_i new hnew
        cases hdeclared
        intro x var hvar hwide
        simp only [update_apply] at hvar
        split at hvar
        · rename_i hxy
          cases hvar
          exact hwide.declared i hi hdecl (hxy ▸ hname) new (hxy ▸ hnew)
        · exact hs x var hvar hwide
      · rw [map_eq_some_iff] at hdeclared
        obtain ⟨w, -, rfl⟩ := hdeclared
        intro x var hvar hwide
        simp only [update_apply] at hvar
        split at hvar
        · cases hvar
        · exact hs x var hvar hwide
  · rw [bind_eq_some_iff] at h
    obtain ⟨⟨vs, w⟩, -, hstore⟩ := h
    exact storeAll_widths (s := { s with world := w }) hs hstore

/-- A wide variable reads back what was written to it. -/
theorem fetch_storeDest (hs : s.Widths H fn) (h : s.storeDest H d v = some s') (hkind : d.kind ≠ .none)
    (hwide : ∀ x, d.var = some x → Wide H fn x)
    (hhost : ∀ x, d.kind = .symbol → d.name = some x → ∀ w w', H.storeVar w x v = some w' → H.loadVar w' x = some v) :
    s'.fetch H d = some v := by
  unfold storeDest at h
  split at h
  · rename_i hnone
    exact absurd hnone hkind
  · rename_i x htemp hname
    cases h
    have hx := hwide x (by simp [Operand.var, htemp, hname])
    simp only [fetch, htemp, hname, update_self, some.injEq]
    refine Var.write_wide ?_ v
    cases henv : s.env x with
    | none => rfl
    | some var => exact hs x var henv hx
  · rename_i x hsym hname
    have hx := hwide x (by simp [Operand.var, hsym, hname])
    split at h
    · rename_i var henv
      cases h
      simp only [fetch, hsym, hname, update_self, some.injEq]
      exact Var.write_wide (hs x var henv hx) v
    · rename_i henv
      rw [map_eq_some_iff] at h
      obtain ⟨w, hw, rfl⟩ := h
      simp only [fetch, hsym, hname, henv, reduceCtorEq, if_false]
      exact hhost x hsym hname _ _ hw
  · cases h

end State

/-! ## Straight-line code -/

/-- Execute instructions one after another. -/
def State.execAll (H : Host W) (fn : Function) : State W → List Inst → Option (State W)
  | s, [] => some s
  | s, i :: rest => (s.exec H fn i).bind fun s => execAll H fn s rest

/-- Two sequences run one after the other. -/
theorem State.execAll_append (fn : Function) (s : State W) (l l' : List Inst) :
    s.execAll H fn (l ++ l') = (s.execAll H fn l).bind fun s => s.execAll H fn l' := by
  induction l generalizing s with
  | nil => rfl
  | cons i l ih =>
    simp only [cons_append, execAll]
    cases s.exec H fn i with
    | none => rfl
    | some s₁ => exact ih s₁

/-! ## Steps -/

/-- What a step that does not return can do: jump to a label, fall through a branch, or execute. -/
theorem step_cases {fn : Function} {pc pc' : ℕ} {s s' : State W}
    (h : step H fn (.at pc s) = some (.at pc' s')) :
    pc < fn.instructions.length ∧
      ((s' = s ∧ fn.findLabel (fn.insn pc).text = some pc' ∧
          ((fn.insn pc).op = .jump ∨ (fn.insn pc).op = .branchZero ∨ (fn.insn pc).op = .branchEq)) ∨
        (s' = s ∧ pc' = pc + 1 ∧ ((fn.insn pc).op = .branchZero ∨ (fn.insn pc).op = .branchEq)) ∨
        (s.exec H fn (fn.insn pc) = some s' ∧ pc' = pc + 1 ∧ (fn.insn pc).op ≠ .jump ∧
          (fn.insn pc).op ≠ .branchZero ∧ (fn.insn pc).op ≠ .branchEq ∧ (fn.insn pc).op ≠ .return)) := by
  simp only [step] at h
  split at h
  · cases h
  rename_i hpc
  refine ⟨by omega, ?_⟩
  -- a jump, the two branches, a return, and what falls through
  split at h
  · rename_i hop
    rw [map_eq_some_iff] at h
    obtain ⟨t, ht, hat⟩ := h
    cases hat
    exact Or.inl ⟨rfl, ht, Or.inl hop⟩
  · rename_i hop
    simp only [bind_eq_bind, bind_eq_some_iff] at h
    obtain ⟨cond, -, h⟩ := h
    split at h
    · cases h
      exact Or.inr (Or.inl ⟨rfl, rfl, Or.inl hop⟩)
    · rw [map_eq_some_iff] at h
      obtain ⟨t, ht, hat⟩ := h
      cases hat
      exact Or.inl ⟨rfl, ht, Or.inr (Or.inl hop)⟩
  · rename_i hop
    simp only [bind_eq_bind, bind_eq_some_iff] at h
    obtain ⟨equal, -, h⟩ := h
    split at h
    · rw [map_eq_some_iff] at h
      obtain ⟨t, ht, hat⟩ := h
      cases hat
      exact Or.inl ⟨rfl, ht, Or.inr (Or.inr hop)⟩
    · cases h
      exact Or.inr (Or.inl ⟨rfl, rfl, Or.inr hop⟩)
  · split at h
    · cases h
    · rw [map_eq_some_iff] at h
      obtain ⟨_, -, hat⟩ := h
      cases hat
  · rename_i h₁ h₂ h₃ h₄
    rw [map_eq_some_iff] at h
    obtain ⟨s₁, hexec, hat⟩ := h
    cases hat
    exact Or.inr (Or.inr ⟨hexec, rfl, h₁, h₂, h₃, h₄⟩)

/-- Where a label is found there is one of the name. -/
theorem findLabel_op {fn : Function} {name : Option String} {t : ℕ} (h : fn.findLabel name = some t) :
    t < fn.instructions.length ∧ (fn.insn t).op = .label ∧ (fn.insn t).text = name := by
  unfold Function.findLabel at h
  rw [bind_eq_some_iff] at h
  obtain ⟨name, rfl, hfind⟩ := h
  obtain ⟨hlt, hop, -⟩ := findIdx?_eq_some_iff_getElem.mp hfind
  rw [decide_eq_true_eq] at hop
  unfold Function.insn
  rw [getD_eq_getElem _ _ hlt]
  exact ⟨hlt, hop⟩

end Mettle.Ir

import Mettle.Ir.IfConvert
import Mettle.Ir.Total

/-!
# The arms of a converted branch

Executing an arm is executing its temporaries and then its assignments (`execAll_split`). The selects
are the assignments of the taken arm (`execAll_selects`); they write every other symbol back
(`assignAll_self`).
-/

open List Option Function

namespace Mettle.Ir

variable {W : Type} {H : Host W}

/-- Writes of two symbols outside the frame commute. -/
def Host.Commutes (H : Host W) (x y : String) : Prop :=
  ∀ w u v, (H.storeVar w x u).bind (fun w => H.storeVar w y v) =
    (H.storeVar w y v).bind fun w => H.storeVar w x u

/-- Writing the value a symbol outside the frame holds changes nothing. -/
def Host.WritesBack (H : Host W) (x : String) : Prop :=
  ∀ w, ∃ v, H.loadVar w x = some v ∧ H.storeVar w x v = some w

/-! ## Writes of different names -/

namespace State

variable {s s' t : State W} {i : Inst} {fn : Function} {addrTaken : String → Bool}

variable {o : Operand} {x y : String} {l : List (String × Operand)}

/-- A store to a symbol depends on its name only. -/
theorem storeDest_symbol (hk : o.kind = .symbol) (hn : o.name = some x) (v : Value) :
    s.storeDest H o v = s.storeDest H (.ofSymbol x) v := by
  simp only [storeDest, hk, hn, Operand.ofSymbol]

/-- A store to a variable of the frame. -/
theorem storeDest_frame {var : Var} (h : s.env x = some var) (v : Value) : s.storeDest H (.ofSymbol x) v =
      some { s with env := update s.env x (some (var.write H.floats v)) } := by
  simp only [storeDest, Operand.ofSymbol, h]

/-- A store to any other variable is the host's. -/
theorem storeDest_host (h : s.env x = none) (v : Value) :
    s.storeDest H (.ofSymbol x) v = (H.storeVar s.world x v).map fun w => { s with world := w } := by
  simp only [storeDest, Operand.ofSymbol, h]

/-- A temporary and a symbol. -/
theorem storeDest_temp_comm (hk : o.kind = .temp) (hn : o.name = some x) (hne : x ≠ y) (u v : Value) :
    (s.storeDest H (.ofSymbol y) v).bind (fun s => s.storeDest H o u) =
      (s.storeDest H o u).bind fun s => s.storeDest H (.ofSymbol y) v := by
  rw [storeDest_temp hk hn, bind_some]
  cases henv : s.env y with
  | some var =>
    rw [storeDest_frame henv, bind_some, storeDest_temp hk hn,
      storeDest_frame (by simpa [update_of_ne hne.symm] using henv)]
    simp only [update_of_ne hne, update_comm hne]
  | none =>
    rw [storeDest_host henv, storeDest_host (by simpa [update_of_ne hne.symm] using henv)]
    cases H.storeVar s.world y v with
    | none => rfl
    | some w => exact storeDest_temp hk hn u

/-- Two symbols. -/
theorem storeDest_symbol_comm (hne : x ≠ y) (hcomm : H.Commutes x y) (u v : Value) :
    (s.storeDest H (.ofSymbol x) u).bind (fun s => s.storeDest H (.ofSymbol y) v) =
      (s.storeDest H (.ofSymbol y) v).bind fun s => s.storeDest H (.ofSymbol x) u := by
  cases hx : s.env x with
  | some a =>
    rw [storeDest_frame hx, bind_some]
    cases hy : s.env y with
    | some b =>
      rw [storeDest_frame hy, bind_some, storeDest_frame (by simpa [update_of_ne hne.symm] using hy),
        storeDest_frame (by simpa [update_of_ne hne] using hx)]
      simp only [update_comm hne]
    | none =>
      rw [storeDest_host hy, storeDest_host (by simpa [update_of_ne hne.symm] using hy)]
      cases H.storeVar s.world y v with
      | none => rfl
      | some w => exact (storeDest_frame (s := { s with world := w }) hx u).symm
  | none =>
    rw [storeDest_host hx]
    cases hy : s.env y with
    | some b =>
      rw [storeDest_frame hy, bind_some, storeDest_host (by simpa [update_of_ne hne] using hx)]
      cases H.storeVar s.world x u with
      | none => rfl
      | some w => exact storeDest_frame (s := { s with world := w }) hy v
    | none =>
      have hx' : ∀ w, ({ s with world := w } : State W).storeDest H (.ofSymbol x) u =
          (H.storeVar w x u).map fun w => { s with world := w } := fun w =>
        storeDest_host (s := { s with world := w }) hx u
      have hy' : ∀ w, ({ s with world := w } : State W).storeDest H (.ofSymbol y) v =
          (H.storeVar w y v).map fun w => { s with world := w } := fun w =>
        storeDest_host (s := { s with world := w }) hy v
      have := congrArg (Option.map fun w => ({ s with world := w } : State W)) (hcomm s.world u v)
      simp only [Option.map_bind, comp_def] at this
      simp only [bind_map, comp_def, hx', hy', this]

/-! ## Assignments -/

/-- The assignment of an operand to a symbol. -/
def assign (H : Host W) (s : State W) (x : String) (o : Operand) : Option (State W) :=
  (s.fetch H o).bind (s.storeDest H (.ofSymbol x))

/-- Assignments one after another. -/
def assignAll (H : Host W) : State W → List (String × Operand) → Option (State W)
  | s, [] => some s
  | s, l :: rest => (s.assign H l.1 l.2).bind fun s => assignAll H s rest

/-- An assignment keeps the operands of other names. -/
theorem fetch_storeDest_ne (hlaw : H.Lawful addrTaken) {v : Value} (h : s.storeDest H (.ofSymbol x) v = some s')
    (hne : o.var ≠ some x) : s'.fetch H o = s.fetch H o := by
  refine fetch_same (storeDest_same hlaw h fun y hy heq => hne ?_)
  rw [hy, ← heq]
  rfl

/-- Two assignments whose variables and sources are apart commute. -/
theorem assign_comm (hlaw : H.Lawful addrTaken) {p : Operand} (hne : x ≠ y) (ho : o.var ≠ some y)
    (hp : p.var ≠ some x) (hcomm : H.Commutes x y) :
    (s.assign H x o).bind (fun s => s.assign H y p) = (s.assign H y p).bind fun s => s.assign H x o := by
  unfold assign
  cases hu : s.fetch H o with
  | none =>
    cases hv : s.fetch H p with
    | none => rfl
    | some v =>
      simp only [bind_none, bind_some]
      cases hstore : s.storeDest H (.ofSymbol y) v with
      | none => rfl
      | some s₁ => rw [bind_some, fetch_storeDest_ne hlaw hstore ho, hu, bind_none]
  | some u =>
    have hfirst : (s.storeDest H (.ofSymbol x) u).bind (fun s₁ =>
        (s₁.fetch H p).bind (s₁.storeDest H (.ofSymbol y))) =
        (s.fetch H p).bind fun v =>
          (s.storeDest H (.ofSymbol x) u).bind fun s₁ => s₁.storeDest H (.ofSymbol y) v := by
      cases hstore : s.storeDest H (.ofSymbol x) u with
      | none => cases s.fetch H p <;> rfl
      | some s₁ =>
        simp only [bind_some]
        rw [fetch_storeDest_ne hlaw hstore hp]
    rw [bind_some, hfirst]
    cases hv : s.fetch H p with
    | none => rfl
    | some v =>
      simp only [bind_some]
      rw [storeDest_symbol_comm hne hcomm]
      cases hstore : s.storeDest H (.ofSymbol y) v with
      | none => rfl
      | some s₁ => rw [bind_some, bind_some, fetch_storeDest_ne hlaw hstore ho, hu, bind_some]

/-- Assignments that do not read each other's symbols may be reordered. -/
theorem assignAll_perm (hlaw : H.Lawful addrTaken) {l' : List (String × Operand)} (hperm : l.Perm l')
    (hcomm : ∀ a ∈ l, ∀ b ∈ l, a ≠ b → a.1 ≠ b.1 ∧ a.2.var ≠ some b.1 ∧ b.2.var ≠ some a.1 ∧ H.Commutes a.1 b.1) :
    s.assignAll H l = s.assignAll H l' := by
  induction hperm generalizing s with
  | nil => rfl
  | cons a _ ih =>
    unfold assignAll
    congr 1
    funext s₁
    exact ih fun b hb c hc => hcomm b (.tail _ hb) c (.tail _ hc)
  | swap a b l =>
    simp only [assignAll]
    by_cases hab : b = a
    · rw [hab]
    · obtain ⟨hne, hb, ha, hswap⟩ := hcomm b (by simp) a (by simp) hab
      rw [← bind_assoc, ← bind_assoc, assign_comm hlaw hne hb ha hswap]
  | trans hfirst _ ih ih' =>
    exact (ih hcomm).trans (ih' fun a ha b hb => hcomm a (hfirst.mem_iff.mpr ha) b (hfirst.mem_iff.mpr hb))

/-- Assignments in states that agree on what they read. -/
theorem assignAll_agree {D : String → Prop} (h : AgreeOff D s s') (hdest : ∀ a ∈ l, ¬ D a.1)
    (hread : ∀ a ∈ l, ∀ x, a.2.var = some x → ¬ D x) (hrun : s.assignAll H l = some t) :
    ∃ t', s'.assignAll H l = some t' ∧ AgreeOff D t t' := by
  induction l generalizing s s' with
  | nil =>
    cases hrun
    exact ⟨s', rfl, h⟩
  | cons a l ih =>
    rw [assignAll, bind_eq_some_iff] at hrun
    obtain ⟨s₁, hfirst, hrest⟩ := hrun
    rw [assign, bind_eq_some_iff] at hfirst
    obtain ⟨v, hv, hstore⟩ := hfirst
    have hsymbol : ∀ x, (Operand.ofSymbol a.1).kind = .symbol → (Operand.ofSymbol a.1).name = some x → ¬ D x := by
      intro x _ hx
      cases hx
      exact hdest a mem_cons_self
    obtain ⟨s₁', hstore', h₁⟩ := storeDest_agree h v hsymbol hstore
    obtain ⟨t', ht', hagree⟩ := ih (h₁.mono fun x hx => hx.1) (fun b hb => hdest b (.tail _ hb))
      (fun b hb => hread b (.tail _ hb)) hrest
    refine ⟨t', ?_, hagree⟩
    rw [assignAll, assign, fetch_agree h (hread a (.head _)), hv, bind_some, hstore', bind_some, ht']

end State

/-! ## The arms -/

namespace Inst

/-- An instruction of an arm that writes a temporary. -/
structure IsArmTemp (i : Inst) : Prop where
  op : i.op ∈ ([.assign, .binary, .unary, .cast] : List Opcode)
  divides : i.op = .binary → i.ifconvBinaryIsTrapping = false
  dest : ∃ x, i.dest.kind = .temp ∧ i.dest.name = some x

/-- An instruction of an arm that assigns a symbol. -/
structure IsArmAssign (i : Inst) (x : String) : Prop where
  op : i.op = .assign
  kind : i.dest.kind = .symbol
  name : i.dest.name = some x
  source : i.lhs.kind ≠ .string

/-- The symbol an instruction of an arm assigns, and the operand. -/
def armAssign (i : Inst) : Option (String × Operand) :=
  if i.op ≠ .nop ∧ i.dest.isSymbol then i.dest.name.map (·, i.lhs) else none

/-- An instruction that concatenates strings. -/
def concatenates (i : Inst) : Bool := i.op = .binary ∧ i.isConcat

/-- An instruction of an arm writes a temporary. -/
def isTempWrite (i : Inst) : Bool := i.op ≠ .nop ∧ i.dest.isTemp

/-- A computation of an arm writes a temporary. -/
theorem IsArmTemp.isTempWrite {i : Inst} (h : i.IsArmTemp) : i.isTempWrite = true := by
  obtain ⟨x, hk, hn⟩ := h.dest
  have hop : i.op ≠ .nop := by
    intro hop
    have := h.op
    simp [hop] at this
  simp [Inst.isTempWrite, Operand.isTemp, hop, hk, hn]

theorem IsArmTemp.armAssign {i : Inst} (h : i.IsArmTemp) : i.armAssign = none := by
  obtain ⟨x, hk, hn⟩ := h.dest
  simp [Inst.armAssign, Operand.isSymbol, hk]

/-- An assignment of an arm writes no temporary. -/
theorem IsArmAssign.isTempWrite {i : Inst} {x : String} (h : i.IsArmAssign x) : i.isTempWrite = false := by
  simp [Inst.isTempWrite, Operand.isTemp, h.kind]

/-- It is noted with its variable and its source. -/
theorem IsArmAssign.armAssign {i : Inst} {x : String} (h : i.IsArmAssign x) : i.armAssign = some (x, i.lhs) := by
  simp [Inst.armAssign, Operand.isSymbol, h.op, h.kind, h.name]

end Inst

/-- One instruction of an arm. -/
inductive ArmInst (i : Inst) : Prop where
  | nop (h : i.op = .nop)
  | temp (h : i.IsArmTemp)
  | assign (x : String) (h : i.IsArmAssign x)

namespace IfConvArm

/-- What the scan of an arm does with an instruction it accepts. -/
theorem scanInst_cases {arm arm' : IfConvArm} {i : Inst} (h : arm.scanInst i = some arm') :
    (i.op = .nop ∧ arm' = arm) ∨ (i.IsArmTemp ∧ arm' = { arm with insns := arm.insns ++ [i] }) ∨
      ∃ x, i.IsArmAssign x ∧ x ∉ arm.locals.map (·.1) ∧
        arm' = { arm with locals := arm.locals ++ [(x, i.lhs)] } := by
  -- a hole, an assignment to a symbol, or a temp computed by an operator
  unfold scanInst at h
  split at h
  · rename_i hnop
    exact Or.inl ⟨hnop, (some.inj h).symm⟩
  split at h
  · cases h
  rename_i hop
  split at h
  · cases h
  rename_i hdivides
  split at h
  · rename_i hsym
    rw [bind_eq_some_iff] at h
    obtain ⟨x, hname, h⟩ := h
    split at h
    · cases h
    rename_i hassign
    split at h
    · cases h
    rename_i hkind
    split at h
    · cases h
    rename_i hfresh
    split at h
    · cases h
    unfold Operand.isSymbol at hsym
    rw [decide_eq_true_eq] at hsym
    refine Or.inr (Or.inr ⟨x, ⟨by tauto, hsym.1, hname, fun hs => ?_⟩, ?_, (some.inj h).symm⟩)
    · simp [hs] at hkind
    · simpa using hfresh
  · split at h
    · cases h
    rename_i htemp
    split at h
    · cases h
    unfold Operand.isTemp at htemp
    simp only [decide_eq_true_eq, not_not] at htemp
    obtain ⟨x, hx⟩ := isSome_iff_exists.mp htemp.2
    refine Or.inr (Or.inl ⟨⟨?_, ?_, x, htemp.1, hx⟩, (some.inj h).symm⟩)
    · simp only [mem_cons, not_mem_nil, or_false]
      tauto
    · intro hbin
      by_contra htrap
      exact hdivides ⟨hbin, by simpa using htrap⟩

/-- What a scan collects. -/
theorem foldlM_scanInst {code : List Inst} {arm₀ arm : IfConvArm} (h : code.foldlM scanInst arm₀ = some arm) :
    arm.insns = arm₀.insns ++ code.filter (·.isTempWrite) ∧
      arm.locals = arm₀.locals ++ code.filterMap (·.armAssign) ∧ (∀ i ∈ code, ArmInst i) ∧
      ((arm₀.locals.map (·.1)).Nodup → (arm.locals.map (·.1)).Nodup) := by
  induction code generalizing arm₀ with
  | nil =>
    obtain rfl : arm₀ = arm := some.inj h
    simp
  | cons i code ih =>
    rw [foldlM_cons, bind_eq_bind, bind_eq_some_iff] at h
    obtain ⟨arm₁, hfirst, hrest⟩ := h
    obtain ⟨hinsns, hlocals, hcode, hnodup⟩ := ih hrest
    rcases scanInst_cases hfirst with ⟨hnop, rfl⟩ | ⟨htemp, rfl⟩ | ⟨x, hassign, hfresh, rfl⟩
    · refine ⟨?_, ?_, forall_mem_cons.mpr ⟨.nop hnop, hcode⟩, hnodup⟩
      · rw [hinsns, filter_cons_of_neg (by simp [Inst.isTempWrite, hnop])]
      · rw [hlocals, filterMap_cons_none (by simp [Inst.armAssign, hnop])]
    · refine ⟨?_, ?_, forall_mem_cons.mpr ⟨.temp htemp, hcode⟩, hnodup⟩
      · rw [hinsns, filter_cons_of_pos htemp.isTempWrite, append_assoc, singleton_append]
      · rw [hlocals, filterMap_cons_none htemp.armAssign]
    · refine ⟨?_, ?_, forall_mem_cons.mpr ⟨.assign x hassign, hcode⟩, fun h₀ => hnodup ?_⟩
      · rw [hinsns, filter_cons_of_neg (by simp [hassign.isTempWrite])]
      · rw [hlocals, filterMap_cons_some hassign.armAssign, append_assoc, singleton_append]
      · rw [map_append, nodup_append]
        refine ⟨h₀, by simp, fun a ha b hb => ?_⟩
        rw [map_singleton, mem_singleton] at hb
        rw [hb]
        rintro rfl
        exact hfresh ha

/-- `ir_ifconv_scan_arm` accepts. -/
theorem scan_spec {code : List Inst} {arm : IfConvArm} (h : scan code = some arm) :
    arm.insns = code.filter (·.isTempWrite) ∧ arm.locals = code.filterMap (·.armAssign) ∧
      (∀ i ∈ code, ArmInst i) ∧ (arm.locals.map (·.1)).Nodup ∧
      ∀ l ∈ arm.locals, ∀ i ∈ code, i.ifconvArmReadsLocal l.1 = false := by
  rw [scan, bind_eq_some_iff] at h
  obtain ⟨arm', hfold, h⟩ := h
  split at h
  · cases h
  rename_i hreads
  cases h
  obtain ⟨hinsns, hlocals, hcode, hnodup⟩ := foldlM_scanInst hfold
  refine ⟨hinsns, hlocals, hcode, hnodup (by simp), fun l hl i hi => ?_⟩
  by_contra hread
  refine hreads (List.any_eq_true.mpr ⟨l, hl, List.any_eq_true.mpr ⟨i, hi, ?_⟩⟩)
  simpa using hread

end IfConvArm

namespace State

variable {s s' t : State W} {i : Inst} {fn : Function} {addrTaken : String → Bool}

/-- The value of an instruction of an arm depends only on the operands it reads. -/
theorem result_arm (h : i.IsArmTemp) (hconcat : i.concatenates = false)
    (hfetch : ∀ o ∈ i.sources, s'.fetch H o = s.fetch H o) : s'.result H i = s.result H i := by
  obtain ⟨x, hk, -⟩ := h.dest
  have hop := h.op
  simp only [mem_cons, not_mem_nil, or_false] at hop
  unfold Inst.sources at hfetch
  unfold result effect
  rcases hop with hop | hop | hop | hop <;> rw [hop] at hfetch ⊢ <;> simp only
  · have hsym : i.dest.isSymbol = false := by simp [Operand.isSymbol, hk]
    simp only [assigned, hsym, Bool.false_eq_true, false_and, and_false, if_false, hfetch i.lhs (by simp)]
    cases s.fetch H i.lhs <;> rfl
  · have hl := hfetch i.lhs (by simp)
    have hr := hfetch i.rhs (by simp)
    simp only [bind_eq_bind, hl, hr, bind_assoc]
    congr 1
    funext a
    congr 1
    funext b
    have hconcat : i.isConcat = false := by simpa [Inst.concatenates, hop] using hconcat
    simp only [Host.binary, hconcat, Bool.false_eq_true, if_false]
    split <;> simp [bind_map]
  · simp only [hfetch i.lhs (by simp), bind_eq_bind, bind_assoc, bind_some]
  · simp only [hfetch i.lhs (by simp), bind_eq_bind, bind_assoc, bind_some]

end State

/-- A computation of an arm has no effect but its result. -/
theorem Inst.IsArmTemp.isSimple {i : Inst} (h : i.IsArmTemp) (hconcat : i.concatenates = false) :
    i.isSimple = true := by
  have hop := h.op
  simp only [mem_cons, not_mem_nil, or_false] at hop
  unfold Inst.concatenates at hconcat
  rcases hop with hop | hop | hop | hop <;> simp_all [Inst.isSimple]

namespace State

variable {s s' t : State W} {i : Inst} {fn : Function} {addrTaken : String → Bool}

variable {x : String} {o : Operand}

/-- An assignment of a symbol commutes with an instruction that writes a temporary. -/
theorem exec_assign_comm (hlaw : H.Lawful addrTaken) (h : i.IsArmTemp) (hconcat : i.concatenates = false)
    (hread : i.readsName x = false) (hdest : i.dest.var ≠ some x) (hvalue : o.var ≠ i.dest.var) :
    (s.assign H x o).bind (fun s => s.exec H fn i) = (s.exec H fn i).bind fun s => s.assign H x o := by
  obtain ⟨y, hk, hn⟩ := h.dest
  have hvar : i.dest.var = some y := by simp [Operand.var, hk, hn]
  have hyx : y ≠ x := fun heq => hdest (by rw [hvar, heq])
  -- the temp does not read what is assigned, and the assigned value does not read the temp
  have hresult : ∀ {v s₁}, s.storeDest H (.ofSymbol x) v = some s₁ → s₁.result H i = s.result H i := by
    intro v s₁ hstore
    refine result_arm h hconcat fun p hp => fetch_storeDest_ne hlaw hstore fun heq => ?_
    unfold Inst.readsName at hread
    rw [List.any_eq_false] at hread
    exact hread p hp (by simpa using heq)
  have hvalue' : ∀ {u s₁}, s.storeDest H i.dest u = some s₁ → s₁.fetch H o = s.fetch H o := by
    intro u s₁ hstore
    refine fetch_same (storeDest_same hlaw hstore fun z hz heq => hvalue ?_)
    rw [hz, heq]
  simp only [exec_simple (h.isSimple hconcat)]
  unfold assign
  cases hv : s.fetch H o with
  | none =>
    cases hu : s.result H i with
    | none => rfl
    | some u =>
      simp only [bind_none, bind_some]
      cases hstore : s.storeDest H i.dest u with
      | none => rfl
      | some s₁ => rw [bind_some, hvalue' hstore, hv, bind_none]
  | some v =>
    have hfirst : (s.storeDest H (.ofSymbol x) v).bind (fun s₁ =>
        (s₁.result H i).bind (s₁.storeDest H i.dest)) =
        (s.result H i).bind fun u =>
          (s.storeDest H (.ofSymbol x) v).bind fun s₁ => s₁.storeDest H i.dest u := by
      cases hstore : s.storeDest H (.ofSymbol x) v with
      | none => cases s.result H i <;> rfl
      | some s₁ =>
        simp only [bind_some]
        rw [hresult hstore]
    rw [bind_some, hfirst]
    cases hu : s.result H i with
    | none => rfl
    | some u =>
      simp only [bind_some]
      rw [storeDest_temp_comm hk hn hyx]
      cases hstore : s.storeDest H i.dest u with
      | none => rfl
      | some s₁ => rw [bind_some, bind_some, hvalue' hstore, hv, bind_some]

/-- An assignment commutes with computations that do not use its variable. -/
theorem execAll_assign_comm (hlaw : H.Lawful addrTaken) {temps : List Inst}
    (htemps : ∀ i ∈ temps, i.IsArmTemp ∧ i.concatenates = false ∧ i.readsName x = false ∧ i.dest.var ≠ some x ∧ o.var ≠ i.dest.var) :
    (s.assign H x o).bind (fun s => s.execAll H fn temps) = (s.execAll H fn temps).bind fun s => s.assign H x o := by
  induction temps generalizing s with
  | nil => simp [execAll]
  | cons i temps ih =>
    obtain ⟨htemp, hconcat, hread, hdest, hvalue⟩ := htemps i mem_cons_self
    simp only [execAll]
    rw [← bind_assoc, exec_assign_comm hlaw htemp hconcat hread hdest hvalue, bind_assoc, bind_assoc]
    congr 1
    funext s₁
    exact ih fun j hj => htemps j (.tail _ hj)

/-- An assignment of an arm assigns. -/
theorem exec_armAssign (h : i.IsArmAssign x) (s : State W) : s.exec H fn i = s.assign H x i.lhs := by
  have hsimple : i.isSimple = true := by simp [Inst.isSimple, h.op]
  have hresult : s.result H i = s.fetch H i.lhs := by
    unfold result effect
    rw [h.op]
    simp only [assigned, h.source, false_and, if_false]
    cases s.fetch H i.lhs <;> rfl
  rw [exec_simple hsimple, hresult]
  congr 1
  funext v
  exact storeDest_symbol h.kind h.name v

end State

/-- What the assignments of an arm need to wait for its end: the temporaries of the arm read no symbol
it assigns and do not write the operand of an earlier assignment. -/
structure ArmApart (code : List Inst) : Prop where
  concat : ∀ i ∈ code, i.isTempWrite = true → i.concatenates = false
  reads : ∀ i ∈ code, ∀ j ∈ code, ∀ x o, i.armAssign = some (x, o) → j.isTempWrite = true →
    j.readsName x = false ∧ j.dest.var ≠ some x
  settled : code.Pairwise fun i j => i.armAssign.isSome → j.isTempWrite = true → i.lhs.var ≠ j.dest.var

/-- Executing an arm is executing its temporaries and then its assignments. -/
theorem State.execAll_split {addrTaken : String → Bool} (hlaw : H.Lawful addrTaken) {fn : Function}
    {code : List Inst} (hcode : ∀ i ∈ code, ArmInst i) (hapart : ArmApart code) (s : State W) :
    s.execAll H fn code = (s.execAll H fn (code.filter (·.isTempWrite))).bind fun s =>
      s.assignAll H (code.filterMap (·.armAssign)) := by
  -- on the arm; an assignment is moved behind the temps that follow it
  induction code generalizing s with
  | nil => simp [execAll, assignAll]
  | cons i code ih =>
    have hrest : ArmApart code := ⟨fun j hj => hapart.concat j (.tail _ hj),
      fun j hj k hk => hapart.reads j (.tail _ hj) k (.tail _ hk),
      (pairwise_cons.mp hapart.settled).2⟩
    have ih := ih (fun j hj => hcode j (.tail _ hj)) hrest
    cases hcode i (.head _) with
    | nop hnop =>
      rw [filter_cons_of_neg (by simp [Inst.isTempWrite, hnop]),
        filterMap_cons_none (by simp [Inst.armAssign, hnop]), execAll, exec_nop hnop, bind_some, ih]
    | temp htemp =>
      rw [filter_cons_of_pos htemp.isTempWrite, filterMap_cons_none htemp.armAssign]
      simp only [execAll, bind_assoc]
      congr 1
      funext s₁
      exact ih s₁
    | assign x hassign =>
      rw [filter_cons_of_neg (by simp [hassign.isTempWrite]),
        filterMap_cons_some hassign.armAssign, execAll, exec_armAssign hassign]
      simp only [ih, assignAll]
      rw [← bind_assoc, ← bind_assoc, execAll_assign_comm hlaw]
      intro j hj
      obtain ⟨hmem, hwrite⟩ := mem_filter.mp hj
      obtain ⟨hread, hdest⟩ := hapart.reads i (.head _) j (.tail _ hmem) x i.lhs hassign.armAssign hwrite
      have htemp : j.IsArmTemp := by
        cases hcode j (.tail _ hmem) with
        | nop hnop => simp [Inst.isTempWrite, hnop] at hwrite
        | temp htemp => exact htemp
        | assign y hassign' => simp [hassign'.isTempWrite] at hwrite
      exact ⟨htemp, hapart.concat j (.tail _ hmem) hwrite, hread, hdest,
        (pairwise_cons.mp hapart.settled).1 j hmem (by rw [hassign.armAssign]; rfl) hwrite⟩

/-! ## Instructions that cannot stop -/

/-- Every symbol outside the frame can be read. -/
def Host.Readable (H : Host W) : Prop := ∀ w x, ∃ v, H.loadVar w x = some v

/-- With a readable host every operand has a value. -/
theorem State.fetch_isSome (hread : H.Readable) {o : Operand} (hlabel : o.kind ≠ .label)
    (s : State W) : ∃ v, s.fetch H o = some v := by
  unfold fetch
  cases hk : o.kind with
  | temp | symbol =>
    cases o.name with
    | none => exact ⟨_, rfl⟩
    | some x =>
      simp only
      cases s.env x with
      | some var => exact ⟨_, rfl⟩
      | none =>
        first
          | exact ⟨_, rfl⟩
          | exact hread s.world x
  | label => exact absurd hk hlabel
  | none | int | float | string => exact ⟨_, rfl⟩

/-- An instruction of an arm neither traps nor stops otherwise. -/
theorem State.exec_arm_isSome {i : Inst} {fn : Function} (h : i.IsArmTemp) (hconcat : i.concatenates = false)
    (hknown : i.isKnown H.floats = true) (hlabel : ∀ o ∈ i.sources, o.kind ≠ .label)
    (hread : H.Readable) (s : State W) : ∃ t, s.exec H fn i = some t := by
  have hop := h.op
  have hnot : i.op ≠ .addressOf := by
    intro hop'
    simp [hop'] at hop
  refine exec_isSome ?_ ?_ (by simpa [Inst.concatenates] using hconcat) hknown h.dest ?_
  · simp only [mem_cons, not_mem_nil, or_false] at hop ⊢
    tauto
  · by_contra hfault
    rw [Bool.not_eq_false, Inst.divideMayFault, decide_eq_true_eq] at hfault
    have hdivides := h.divides hfault.1
    simp only [Inst.ifconvBinaryIsTrapping, decide_eq_false_iff_not] at hdivides
    exact hdivides hfault.2.2.1
  · unfold InScope
    rw [if_neg hnot]
    exact fun o ho => fetch_isSome hread (hlabel o ho) s

/-! ## Temporaries of both arms -/

/-- The names of a list that no instruction of an arm writes as a temporary. -/
def remaining (names : List String) (code : List Inst) : List String :=
  names.filter fun x => ¬ code.any fun i => i.isTempWrite ∧ i.dest.var = some x

/-- The code reads none of the names, unless it has written the name itself before. -/
def leavesUnread (names : List String) : List Inst → Bool
  | [] => true
  | i :: rest => names.all (fun x => ¬ i.readsName x) && leavesUnread (remaining names [i]) rest

/-- The names that remain, one instruction after the other. -/
theorem remaining_cons (names : List String) (i : Inst) (code : List Inst) :
    remaining names (i :: code) = remaining (remaining names [i]) code := by
  unfold remaining
  rw [List.filter_filter]
  congr 1
  funext x
  simp [and_comm]

namespace State

variable {s s' t : State W} {fn : Function} {names : List String} {code : List Inst}

/-- The writes of temporaries in an arm are its computations. -/
theorem isArmTemp_of_filter (hcode : ∀ i ∈ code, ArmInst i) {i : Inst}
    (hi : i ∈ code.filter (·.isTempWrite)) : i.IsArmTemp := by
  obtain ⟨hmem, hwrite⟩ := mem_filter.mp hi
  cases hcode i hmem with
  | nop hnop => simp [Inst.isTempWrite, hnop] at hwrite
  | temp htemp => exact htemp
  | assign y hassign => simp [hassign.isTempWrite] at hwrite

/-- Temporaries change only the variables they write. -/
theorem execAll_temps_agree {temps : List Inst}
    (htemps : ∀ i ∈ temps, i.IsArmTemp ∧ i.concatenates = false) (hrun : s.execAll H fn temps = some t) :
    AgreeOff (fun x => ∃ i ∈ temps, i.dest.var = some x) s t := by
  induction temps generalizing s with
  | nil =>
    obtain rfl := some.inj hrun
    exact AgreeOff.refl _ s
  | cons i temps ih =>
    rw [execAll, bind_eq_some_iff] at hrun
    obtain ⟨s₁, hfirst, hrest⟩ := hrun
    obtain ⟨htemp, hconcat⟩ := htemps i mem_cons_self
    obtain ⟨x, hk, -⟩ := htemp.dest
    rw [exec_simple (htemp.isSimple hconcat), bind_eq_some_iff] at hfirst
    obtain ⟨v, -, hstore⟩ := hfirst
    refine ((agreeOff_storeDest hk hstore).mono fun y hy => ⟨i, mem_cons_self, hy⟩).trans
      ((ih (fun j hj => htemps j (mem_cons_of_mem _ hj)) hrest).mono ?_)
    rintro y ⟨j, hj, hy⟩
    exact ⟨j, mem_cons_of_mem _ hj, hy⟩

/-- The temporaries of an arm do the same in states that differ in what it does not read. -/
theorem execAll_unread (hcode : ∀ i ∈ code, ArmInst i)
    (hconcat : ∀ i ∈ code, i.isTempWrite = true → i.concatenates = false)
    (hunread : leavesUnread names code = true) (h : AgreeOff (· ∈ names) s s')
    (hrun : s.execAll H fn (code.filter (·.isTempWrite)) = some t) :
    ∃ t', s'.execAll H fn (code.filter (·.isTempWrite)) = some t' ∧ AgreeOff (· ∈ remaining names code) t t' := by
  induction code generalizing names s s' with
  | nil =>
    cases hrun
    exact ⟨s', rfl, h.mono fun x hx => by simpa [remaining] using hx⟩
  | cons i code ih =>
    rw [leavesUnread, Bool.and_eq_true, List.all_eq_true] at hunread
    obtain ⟨hreads, hrest⟩ := hunread
    have hcode' : ∀ j ∈ code, ArmInst j := fun j hj => hcode j (.tail _ hj)
    have hconcat' : ∀ j ∈ code, j.isTempWrite = true → j.concatenates = false :=
      fun j hj => hconcat j (.tail _ hj)
    rw [remaining_cons]
    by_cases hwrite : i.isTempWrite = true
    · rw [filter_cons_of_pos hwrite] at hrun ⊢
      have htemp : i.IsArmTemp :=
        isArmTemp_of_filter hcode (mem_filter.mpr ⟨mem_cons_self, hwrite⟩)
      obtain ⟨x, hk, hn⟩ := htemp.dest
      rw [execAll, bind_eq_some_iff] at hrun
      obtain ⟨s₁, hfirst, hrun⟩ := hrun
      obtain ⟨s₁', hfirst', h₁⟩ := exec_simple_agree h (htemp.isSimple (hconcat i (.head _) hwrite))
        (fun y hy => by simpa using hreads y hy) (fun y hsym => by rw [hk] at hsym; cases hsym) hfirst
      obtain ⟨t', ht', hagree⟩ := ih hcode' hconcat' hrest (h₁.mono fun y hy => by
        simpa [remaining, hwrite] using hy) hrun
      exact ⟨t', by rw [execAll, hfirst', bind_some, ht'], hagree⟩
    · rw [filter_cons_of_neg hwrite] at hrun ⊢
      exact ih hcode' hconcat' hrest (h.mono fun y hy => by simpa [remaining, hwrite] using hy) hrun

end State

/-- An operand an arm assigns is not one of the names left over. -/
theorem armAssign_not_remaining {names : List String} {code : List Inst}
    (hcode : ∀ i ∈ code, ArmInst i) (hunread : leavesUnread names code = true) :
    ∀ l ∈ code.filterMap (·.armAssign), ∀ x, l.2.var = some x → x ∉ remaining names code := by
  induction code generalizing names with
  | nil => simp
  | cons i code ih =>
    rw [leavesUnread, Bool.and_eq_true, List.all_eq_true] at hunread
    obtain ⟨hreads, hrest⟩ := hunread
    have ih := ih (fun j hj => hcode j (.tail _ hj)) hrest
    rw [remaining_cons]
    intro l hl x hx
    cases hcode i (.head _) with
    | nop hnop =>
      rw [filterMap_cons_none (by simp [Inst.armAssign, hnop])] at hl
      exact ih l hl x hx
    | temp htemp =>
      rw [filterMap_cons_none htemp.armAssign] at hl
      exact ih l hl x hx
    | assign y hassign =>
      rw [filterMap_cons_some hassign.armAssign] at hl
      rcases mem_cons.mp hl with rfl | hl
      · intro hmem
        have hname : x ∈ names := (mem_filter.mp (mem_filter.mp hmem).1).1
        have := hreads x hname
        simp [Inst.readsName, Inst.sources, hassign.op] at this
        exact this hx
      · exact ih l hl x hx

/-! ## Selects -/

namespace State

variable {s s' t : State W} {fn : Function} {addrTaken : String → Bool}

variable {site : IfConvSite} {cond : Operand} {x : String} {c : BitVec 64}

/-- A select is an assignment of one of its two operands. -/
theorem exec_select (hcond : s.fetchInt H cond = some c) : s.exec H fn (site.select cond x) =
      s.assign H x (((if c ≠ 0 then site.thenArm else site.elseArm).value x).getD (.ofSymbol x)) := by
  have hresult : s.result H (site.select cond x) =
      s.fetch H (((if c ≠ 0 then site.thenArm else site.elseArm).value x).getD (.ofSymbol x)) := by
    simp only [result, effect, IfConvSite.select, select, hcond, map_some, bind_eq_bind,
      bind_some, isEmpty_cons, Bool.false_eq_true, if_false, getD_cons_zero,
      decide_eq_true_eq]
    split <;> cases s.fetch H _ <;> rfl
  rw [exec_simple (by rfl), hresult]
  rfl

/-- The selects are assignments of the taken arm as long as they do not write the condition. -/
theorem execAll_selects (hlaw : H.Lawful addrTaken) {names : List String} (hcond : s.fetchInt H cond = some c)
    (hkeep : ∀ x ∈ names.dropLast, cond.var ≠ some x) :
    s.execAll H fn (names.map (site.select cond)) = s.assignAll H (names.map fun x =>
        (x, ((if c ≠ 0 then site.thenArm else site.elseArm).value x).getD (.ofSymbol x))) := by
  induction names generalizing s with
  | nil => rfl
  | cons x names ih =>
    simp only [map_cons, execAll, assignAll]
    rw [exec_select hcond]
    cases names with
    | nil => rfl
    | cons y names =>
      cases hfirst : s.assign H x (((if c ≠ 0 then site.thenArm else site.elseArm).value x).getD (.ofSymbol x)) with
      | none => rfl
      | some s₁ =>
        rw [assign, bind_eq_some_iff] at hfirst
        obtain ⟨v, -, hstore⟩ := hfirst
        have hx : cond.var ≠ some x := hkeep x (by simp)
        refine ih ?_ fun z hz => hkeep z ?_
        · rw [← hcond]
          unfold fetchInt
          rw [fetch_storeDest_ne hlaw hstore hx]
        · rw [dropLast_cons_cons]
          exact .tail _ hz

/-- Writing a symbol back changes nothing. -/
def WritesBack (H : Host W) (s : State W) (x : String) : Prop :=
  (∀ var, s.env x = some var → var.write H.floats var.value = var) ∧ (s.env x = none → H.WritesBack x)

/-- To assign a variable to itself changes nothing when it writes back what it holds. -/
theorem assign_self (h : s.WritesBack H x) : s.assign H x (.ofSymbol x) = some s := by
  unfold assign
  cases henv : s.env x with
  | some var =>
    have hfetch : s.fetch H (.ofSymbol x) = some var.value := by simp [fetch, Operand.ofSymbol, henv]
    rw [hfetch, bind_some, storeDest_frame henv, h.1 var henv, ← henv, update_eq_self]
  | none =>
    obtain ⟨v, hload, hstore⟩ := h.2 henv s.world
    have hfetch : s.fetch H (.ofSymbol x) = some v := by simp [fetch, Operand.ofSymbol, henv, hload]
    rw [hfetch, bind_some, storeDest_host henv, hstore, map_some]

/-- Assigning another variable keeps that. -/
theorem WritesBack.assign (hlaw : H.Lawful addrTaken) {y : String} {o : Operand} (h : s.WritesBack H x) (hne : y ≠ x)
    (hrun : s.assign H y o = some s') : s'.WritesBack H x := by
  rw [State.assign, bind_eq_some_iff] at hrun
  obtain ⟨v, -, hstore⟩ := hrun
  have henv : s'.env x = s.env x := by
    refine (storeDest_same (o := .ofSymbol x) hlaw hstore (fun z hz heq => hne ?_) x rfl).1
    have hz' : x = z := some.inj hz
    have hy' : y = z := some.inj heq
    rw [hy', hz']
  unfold WritesBack
  rw [henv]
  exact h

/-- The symbols that the taken arm does not assign are written back. -/
theorem assignAll_self (hlaw : H.Lawful addrTaken) {names : List String} {f : String → Operand}
    (p : String → Bool) (hself : ∀ x ∈ names, p x = false → f x = .ofSymbol x ∧ s.WritesBack H x)
    (hnodup : names.Nodup) :
    s.assignAll H (names.map fun x => (x, f x)) = s.assignAll H ((names.filter p).map fun x => (x, f x)) := by
  induction names generalizing s with
  | nil => rfl
  | cons x names ih =>
    obtain ⟨hx, hnodup⟩ := nodup_cons.mp hnodup
    by_cases hp : p x = true
    · rw [filter_cons_of_pos hp]
      simp only [map_cons, assignAll]
      cases hfirst : s.assign H x (f x) with
      | none => rfl
      | some s₁ =>
        refine ih (fun y hy hpy => ?_) hnodup
        obtain ⟨hf, hback⟩ := hself y (.tail _ hy) hpy
        refine ⟨hf, hback.assign hlaw ?_ hfirst⟩
        rintro rfl
        exact hx hy
    · rw [filter_cons_of_neg hp]
      obtain ⟨hf, hback⟩ := hself x (.head _) (by simpa using hp)
      simp only [map_cons, assignAll]
      rw [hf, assign_self hback, bind_some]
      exact ih (fun y hy => hself y (.tail _ hy)) hnodup

end State

end Mettle.Ir

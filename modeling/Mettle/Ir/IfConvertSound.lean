import Mettle.Ir.IfConvertArms
import Mettle.Lib.Segments

/-!
# If-conversion preserves the symbols

`ifConvert_preserves`: where a branch meets the conditions `IfConvSite.Safe`, which the pass does not
check, the code that replaces it leaves the symbols as the arm that is taken does.
-/

open List Option

namespace Mettle.Ir

variable {W : Type} {H : Host W}

/-! ## The site -/

/-- The variable of a name, wherever the activation is. -/
def Config.var : Config W → String → Option Var
  | .at _ s, x => s.env x
  | .returned _ s, x => s.env x

namespace Function

variable {fn : Function}

/-- No two labels have the same name, as `ir_function_check_structure` requires. -/
def LabelsDistinct (fn : Function) : Prop :=
  ∀ i < fn.instructions.length, ∀ j < fn.instructions.length, (fn.insn i).op = .label →
    (fn.insn j).op = .label → (fn.insn i).text = (fn.insn j).text → i = j

/-- No temporary has the name of a symbol. -/
def NamesApart (fn : Function) : Prop :=
  ∀ i ∈ fn.instructions, ∀ j ∈ fn.instructions, ∀ o ∈ i.operands, ∀ p ∈ j.operands,
    o.kind = .temp → p.kind = .symbol → o.name.isSome → o.name ≠ p.name

/-- The search finds the first instruction of its kind. -/
theorem firstFrom_spec {start k : ℕ} {p : Inst → Bool} (h : fn.firstFrom start p = some k) :
    start ≤ k ∧ k < fn.instructions.length ∧ p (fn.insn k) = true ∧
      ∀ j, start ≤ j → j < k → p (fn.insn j) = false := by
  rw [firstFrom, map_eq_some_iff] at h
  obtain ⟨m, hfind, rfl⟩ := h
  obtain ⟨hlt, hp, hbefore⟩ := findIdx?_eq_some_iff_getElem.mp hfind
  have hlength : start + m < fn.instructions.length := by
    rw [length_drop] at hlt
    omega
  refine ⟨by omega, hlength, ?_, fun j hj hjm => ?_⟩
  · rw [getElem_drop] at hp
    rwa [insn, getD_eq_getElem _ _ hlength]
  · have := hbefore (j - start) (by omega)
    rw [insn, getD_eq_getElem _ _ (by omega)]
    simpa [show start + (j - start) = j by omega] using this

/-- A label is found where it is, when no other has its name. -/
theorem findLabel_eq {k : ℕ} (hlabels : fn.LabelsDistinct) (hk : k < fn.instructions.length)
    (hop : (fn.insn k).op = .label) (htext : (fn.insn k).text.isSome) :
    fn.findLabel (fn.insn k).text = some k := by
  obtain ⟨name, hname⟩ := isSome_iff_exists.mp htext
  have hsome : (fn.findLabel (fn.insn k).text).isSome = true := by
    rw [hname, findLabel, bind_some, findIdx?_isSome, List.any_eq_true]
    refine ⟨fn.insn k, ?_, by simp [hop, hname]⟩
    rw [insn, getD_eq_getElem _ _ hk]
    exact getElem_mem hk
  obtain ⟨j, hj⟩ := isSome_iff_exists.mp hsome
  obtain ⟨hlt, hlabel, htext'⟩ := findLabel_op hj
  rw [hj, hlabels j hlt k hk hlabel hop htext']

end Function

/-- The steps to the join label through the then or the else arm. -/
def IfConvSite.armSteps (site : IfConvSite) (branch : ℕ) (taken : Bool) : ℕ :=
  if taken then site.thenJump - branch + 1 else site.joinLabel - site.elseLabel + 1

/-- The code of the arm that is taken. -/
def IfConvSite.armCode (site : IfConvSite) (fn : Function) (branch : ℕ) (taken : Bool) : List Inst :=
  if taken then fn.slice (branch + 1) site.thenJump else fn.slice (site.elseLabel + 1) site.joinLabel

/-- What the shape of an accepted branch is. -/
structure IfConvSite.Shape (site : IfConvSite) (fn : Function) (branch : ℕ) : Prop where
  branch_op : (fn.insn branch).op = .branchZero
  branch_kind : (fn.insn branch).lhs.kind = .temp ∨ (fn.insn branch).lhs.kind = .symbol
  branch_lt : branch < site.thenJump
  jump_op : (fn.insn site.thenJump).op = .jump
  jump_lt : site.thenJump < site.elseLabel
  label_op : (fn.insn site.elseLabel).op = .label
  label_text : (fn.insn site.elseLabel).text = (fn.insn branch).text ∧ (fn.insn branch).text.isSome
  label_lt : site.elseLabel < site.joinLabel
  join_op : (fn.insn site.joinLabel).op = .label
  join_text : (fn.insn site.joinLabel).text = (fn.insn site.thenJump).text ∧
    (fn.insn site.thenJump).text.isSome
  join_lt : site.joinLabel < fn.instructions.length
  then_arm : IfConvArm.scan (fn.slice (branch + 1) site.thenJump) = some site.thenArm
  else_arm : IfConvArm.scan (fn.slice (site.elseLabel + 1) site.joinLabel) = some site.elseArm

/-- A site that the pass finds has the shape of a branch with two arms and a join. -/
theorem Function.ifconvSite_shape {fn : Function} {branch : ℕ} {site : IfConvSite}
    (h : fn.ifconvSite branch = some site) : site.Shape fn branch := by
  simp only [ifconvSite, bind_eq_bind, bind_eq_some_iff, guard_eq_some', exists_const, some.injEq] at h
  obtain ⟨⟨hop, htext, hkind⟩, thenJump, hthen, ⟨hjump, hjtext⟩, elseLabel, helse, ⟨hlabel, hltext⟩,
    joinLabel, hjoin, hjoinText, -, thenArm, hthenArm, elseArm, helseArm, -, rfl⟩ := h
  obtain ⟨h₁, -, -, -⟩ := firstFrom_spec hthen
  obtain ⟨h₂, -, -, -⟩ := firstFrom_spec helse
  obtain ⟨h₃, hlen, hjop, -⟩ := firstFrom_spec hjoin
  exact ⟨hop, hkind, h₁, hjump, h₂, hlabel, ⟨hltext, htext⟩, h₃, of_decide_eq_true hjop,
    ⟨hjoinText, hjtext⟩, hlen, hthenArm, helseArm⟩

theorem ArmInst.not_control {i : Inst} (h : ArmInst i) : i.op.isControl = false := by
  cases h with
  | nop h => rw [h]; rfl
  | temp h =>
    have hop := h.op
    simp only [mem_cons, not_mem_nil, or_false] at hop
    rcases hop with hop | hop | hop | hop <;> rw [hop] <;> rfl
  | assign x h => rw [h.op]; rfl

/-- The run of the branch: it executes the arm that is taken and arrives at the join label. -/
theorem stepN_branch {fn : Function} {branch : ℕ} {site : IfConvSite} (hshape : site.Shape fn branch)
    (hlabels : fn.LabelsDistinct) {s : State W} {v : Value}
    (hv : s.fetch H (fn.insn branch).lhs = some v) :
    stepN H fn (site.armSteps branch v.truth) (.at branch s) =
      (s.execAll H fn (site.armCode fn branch v.truth)).map (.at site.joinLabel) := by
  have hlen := hshape.join_lt
  have h₁ := hshape.branch_lt
  have h₂ := hshape.jump_lt
  have h₃ := hshape.label_lt
  obtain ⟨-, -, hthen, -, -⟩ := IfConvArm.scan_spec hshape.then_arm
  obtain ⟨-, -, helse, -, -⟩ := IfConvArm.scan_spec hshape.else_arm
  unfold IfConvSite.armSteps IfConvSite.armCode
  -- the then arm falls through to its jump, the else arm starts behind the label
  by_cases htruth : v.truth = true
  · have hstep : step H fn (.at branch s) = some (.at (branch + 1) s) := by
      simp [step, if_neg (show ¬ fn.instructions.length ≤ branch by omega), hshape.branch_op, hv, htruth]
    have hjump : ∀ t : State W, step H fn (.at site.thenJump t) = some (.at site.joinLabel t) := by
      intro t
      have hfind : fn.findLabel (fn.insn site.thenJump).text = some site.joinLabel := by
        rw [← hshape.join_text.1]
        exact Function.findLabel_eq hlabels hlen hshape.join_op (hshape.join_text.1 ▸ hshape.join_text.2)
      simp [step, if_neg (show ¬ fn.instructions.length ≤ site.thenJump by omega), hshape.jump_op, hfind]
    rw [if_pos htruth, if_pos htruth,
      show site.thenJump - branch + 1 = 1 + ((site.thenJump - (branch + 1)) + 1) by omega, stepN_add,
      stepN, hstep, bind_some, stepN, bind_some, stepN_add,
      stepN_straight s (by omega) (by omega) fun k hk hk' =>
        (hthen _ (Function.insn_mem_slice hk hk' (by omega))).not_control]
    cases s.execAll H fn (fn.slice (branch + 1) site.thenJump) with
    | none => rfl
    | some t => simp only [map_some, bind_some, stepN, hjump]
  · have hstep : step H fn (.at branch s) = some (.at site.elseLabel s) := by
      have hfind : fn.findLabel (fn.insn branch).text = some site.elseLabel := by
        rw [← hshape.label_text.1]
        exact Function.findLabel_eq hlabels (by omega) hshape.label_op (hshape.label_text.1 ▸ hshape.label_text.2)
      simp [step, if_neg (show ¬ fn.instructions.length ≤ branch by omega), hshape.branch_op, hv, if_neg htruth, hfind]
    have hlabel : s.exec H fn (fn.insn site.elseLabel) = some s := by
      simp [State.exec, State.effect, Inst.results, hshape.label_op, State.storeAll]
    rw [if_neg htruth, if_neg htruth, Nat.add_comm, stepN_add, stepN, hstep, bind_some, stepN,
      bind_some, stepN_straight s (by omega) (by omega) fun k hk hk' => ?_,
      Function.slice_eq_cons (by omega) (by omega), State.execAll, hlabel, bind_some]
    by_cases hk₀ : k = site.elseLabel
    · rw [hk₀, hshape.label_op]
      rfl
    · exact (helse _ (Function.insn_mem_slice (by omega) hk' (by omega))).not_control

/-! ## The symbols selected -/

/-- The value of a variable in an arm is the last one assigned. -/
theorem IfConvArm.value_of_mem {arm : IfConvArm} (hnodup : (arm.locals.map (·.1)).Nodup)
    {l : String × Operand} (hl : l ∈ arm.locals) : arm.value l.1 = some l.2 := by
  have hsome : (arm.locals.find? fun l' => l'.1 = l.1).isSome = true :=
    find?_isSome.mpr ⟨l, hl, by simp⟩
  obtain ⟨r, hr⟩ := isSome_iff_exists.mp hsome
  have hkey : r.1 = l.1 := by simpa using find?_some hr
  have heq : r = l := inj_on_of_nodup_map hnodup (List.mem_of_find?_eq_some hr) hl hkey
  rw [value, hr, map_some, heq]

/-- A variable that the arm does not assign has none. -/
theorem IfConvArm.value_of_not_mem {arm : IfConvArm} {x : String} (hx : x ∉ arm.locals.map (·.1)) :
    arm.value x = none := by
  rw [value, map_eq_none_iff, find?_eq_none]
  intro l hl heq
  exact hx (List.mem_map.mpr ⟨l, hl, by simpa using heq⟩)

/-- The assignments of an arm, from the symbols. -/
theorem IfConvArm.map_value {arm : IfConvArm} (hnodup : (arm.locals.map (·.1)).Nodup) :
    (arm.locals.map (·.1)).map (fun x => (x, (arm.value x).getD (.ofSymbol x))) = arm.locals := by
  rw [List.map_map]
  refine (map_congr_left fun l hl => ?_).trans (List.map_id _)
  simp [Function.comp_apply, value_of_mem hnodup hl, id_eq]

/-- Collecting names without repetition. -/
theorem foldl_seen {l : List (String × Operand)} (hnodup : (l.map (·.1)).Nodup) (seen : List String) :
    l.foldl (fun seen l => if l.1 ∈ seen then seen else seen ++ [l.1]) seen =
      seen ++ (l.map (·.1)).filter (· ∉ seen) := by
  induction l generalizing seen with
  | nil => simp
  | cons a l ih =>
    rw [map_cons, nodup_cons] at hnodup
    rw [foldl_cons, map_cons, ih hnodup.2]
    by_cases ha : a.1 ∈ seen
    · rw [if_pos ha, filter_cons_of_neg (by simpa using ha)]
    · rw [if_neg ha, filter_cons_of_pos (by simpa using ha), append_assoc, singleton_append]
      congr 2
      refine filter_congr fun x hx => ?_
      have hxa : x ≠ a.1 := by
        rintro rfl
        exact hnodup.1 hx
      simp [hxa]

namespace IfConvSite

variable {site : IfConvSite} {fn : Function} {branch : ℕ}

/-- The symbols the arms assign. -/
def thenNames (site : IfConvSite) : List String := site.thenArm.locals.map (·.1)

@[inherit_doc thenNames]
def elseNames (site : IfConvSite) : List String := site.elseArm.locals.map (·.1)

section

variable (hthen : site.thenNames.Nodup) (helse : site.elseNames.Nodup)
include hthen helse

/-- The selected variables are those of the first arm, then the others of the second. -/
theorem selected_eq : site.selected = site.thenNames ++ site.elseNames.filter (· ∉ site.thenNames) := by
  have hfirst : site.thenNames.filter (· ∉ ([] : List String)) = site.thenNames :=
    filter_eq_self.mpr fun x _ => by simp
  unfold selected
  rw [foldl_append, foldl_seen hthen, foldl_seen helse, nil_append]
  unfold thenNames at hfirst
  rw [hfirst]
  rfl

theorem selected_nodup : site.selected.Nodup := by
  rw [selected_eq hthen helse, nodup_append]
  refine ⟨hthen, helse.filter _, fun a ha b hb => ?_⟩
  rintro rfl
  have := (mem_filter.mp hb).2
  simp [ha] at this

theorem selected_filter_then : site.selected.filter (· ∈ site.thenNames) = site.thenNames := by
  rw [selected_eq hthen helse, filter_append, List.filter_filter]
  have hleft : site.thenNames.filter (· ∈ site.thenNames) = site.thenNames :=
    filter_eq_self.mpr fun x hx => by simpa using hx
  have hright : site.elseNames.filter (fun x => decide (x ∈ site.thenNames) && decide (x ∉ site.thenNames)) = [] := by
    refine filter_eq_nil_iff.mpr fun x _ => ?_
    simp
  rw [hleft, hright, append_nil]

theorem selected_filter_else : (site.selected.filter (· ∈ site.elseNames)).Perm site.elseNames := by
  refine (perm_ext_iff_of_nodup ((selected_nodup hthen helse).filter _) helse).mpr fun x => ?_
  rw [mem_filter, selected_eq hthen helse, mem_append, mem_filter]
  by_cases hx : x ∈ site.thenNames <;> simp [hx]

end

/-- What the pass takes for granted of the function. -/
structure WellFormed (site : IfConvSite) (fn : Function) (F : FloatOps) : Prop where
  labels : fn.LabelsDistinct
  names : fn.NamesApart
  known : ∀ i ∈ site.thenArm.insns ++ site.elseArm.insns, i.isKnown F = true
  values : ∀ i ∈ site.thenArm.insns ++ site.elseArm.insns, ∀ o ∈ i.sources, o.kind ≠ .label

/-- What the pass should check of the arms and does not: no string is concatenated, the condition is
written by no temporary and by no select but the last, a temporary written later is not the operand of
an assignment, the else arm does not write the operands of the then arm and reads no temporary the
then arm has written. -/
structure Safe (site : IfConvSite) (fn : Function) (branch : ℕ) : Prop where
  concat : ∀ i ∈ site.thenArm.insns ++ site.elseArm.insns, i.concatenates = false
  cond_temp : ∀ i ∈ site.thenArm.insns ++ site.elseArm.insns, i.dest.var ≠ (fn.insn branch).lhs.var
  cond_symbol : ∀ x ∈ site.selected.dropLast, (fn.insn branch).lhs.var ≠ some x
  settled : ∀ taken, (site.armCode fn branch taken).Pairwise fun i j =>
    i.armAssign.isSome → j.isTempWrite = true → i.lhs.var ≠ j.dest.var
  then_kept : ∀ l ∈ site.thenArm.locals, ∀ i ∈ site.elseArm.insns, l.2.var ≠ i.dest.var
  else_unread : leavesUnread (site.thenArm.insns.filterMap (·.dest.var))
    (site.armCode fn branch false) = true

/-- The arm that is taken. -/
def arm (site : IfConvSite) (taken : Bool) : IfConvArm :=
  if taken then site.thenArm else site.elseArm

/-- Each arm scans to what the site says. -/
theorem Shape.scan (h : site.Shape fn branch) (taken : Bool) :
    IfConvArm.scan (site.armCode fn branch taken) = some (site.arm taken) := by
  cases taken
  · exact h.else_arm
  · exact h.then_arm

variable {taken : Bool} {i : Inst}

/-- The code of an arm is code of the function. -/
theorem mem_instructions (hi : i ∈ site.armCode fn branch taken) : i ∈ fn.instructions := by
  have hslice : ∀ {start stop}, i ∈ fn.slice start stop → i ∈ fn.instructions :=
    fun hmem => mem_of_mem_drop (mem_of_mem_take hmem)
  unfold armCode at hi
  split at hi <;> exact hslice hi

/-- The computations of an arm are the writes of temporaries in its code. -/
theorem Shape.insns_mem (h : site.Shape fn branch) (taken : Bool) (hi : i ∈ (site.arm taken).insns) :
    i ∈ site.armCode fn branch taken ∧ i.isTempWrite = true ∧ i.IsArmTemp := by
  obtain ⟨hinsns, -, hcode, -, -⟩ := IfConvArm.scan_spec (h.scan taken)
  rw [hinsns] at hi
  exact ⟨(mem_filter.mp hi).1, (mem_filter.mp hi).2, State.isArmTemp_of_filter hcode hi⟩

/-- They are among the computations that are hoisted. -/
theorem mem_insns_arm (hi : i ∈ (site.arm taken).insns) : i ∈ site.thenArm.insns ++ site.elseArm.insns := by
  unfold arm at hi
  split at hi
  · exact mem_append_left _ hi
  · exact mem_append_right _ hi

/-- A symbol selected is one that an arm assigns. -/
theorem mem_selected (h : site.Shape fn branch) {x : String} (hx : x ∈ site.selected) :
    ∃ taken, ∃ l ∈ (site.arm taken).locals, l.1 = x := by
  obtain ⟨-, -, -, hthen, -⟩ := IfConvArm.scan_spec h.then_arm
  obtain ⟨-, -, -, helse, -⟩ := IfConvArm.scan_spec h.else_arm
  rw [selected_eq hthen helse, mem_append] at hx
  rcases hx with hx | hx
  · exact ⟨true, List.mem_map.mp hx⟩
  · exact ⟨false, List.mem_map.mp (mem_filter.mp hx).1⟩

/-- Where an arm assigns a symbol. -/
theorem Shape.mem_locals (h : site.Shape fn branch) {l : String × Operand} (hl : l ∈ (site.arm taken).locals) :
    ∃ i ∈ site.armCode fn branch taken, i.IsArmAssign l.1 ∧ i.lhs = l.2 := by
  obtain ⟨-, hlocals, hcode, -, -⟩ := IfConvArm.scan_spec (h.scan taken)
  rw [hlocals, mem_filterMap] at hl
  obtain ⟨i, hi, hassign⟩ := hl
  refine ⟨i, hi, ?_⟩
  cases hcode i hi with
  | nop hnop => simp [Inst.armAssign, hnop] at hassign
  | temp htemp => simp [htemp.armAssign] at hassign
  | assign y hassign' =>
    rw [hassign'.armAssign] at hassign
    cases hassign
    exact ⟨hassign', rfl⟩

section

variable (h : site.Shape fn branch) (hnames : fn.NamesApart)
include h hnames

variable {taken : Bool} {l : String × Operand}

/-- An operand of an arm that has the name of a symbol it assigns is neither the symbol, which the scan
excludes, nor a temporary. -/
theorem Shape.operand_ne_symbol (hl : l ∈ (site.arm taken).locals) {j : Inst} (hj : j ∈ site.armCode fn branch taken)
    {q : Operand} (hq : q = j.lhs ∨ q = j.rhs) : q.var ≠ some l.1 := by
  obtain ⟨-, -, -, -, hreads⟩ := IfConvArm.scan_spec (h.scan taken)
  obtain ⟨i, hi, hassign, -⟩ := h.mem_locals hl
  have hlocal := hreads l hl j hj
  intro hvar
  unfold Operand.var at hvar
  split at hvar
  · rename_i hkind
    rcases hkind with hkind | hkind
    · refine hnames j (mem_instructions hj) i (mem_instructions hi) q ?_ i.dest (by simp [Inst.operands])
        hkind hassign.kind ?_ ?_
      · rcases hq with rfl | rfl <;> simp [Inst.operands]
      · rw [hvar]
        rfl
      · rw [hvar, hassign.name]
    · unfold Inst.ifconvArmReadsLocal Operand.isSymbolNamed at hlocal
      rcases hq with rfl | rfl <;> simp [hkind, hvar] at hlocal
  · cases hvar

/-- An arm assigns no symbol the value of a symbol it assigns. -/
theorem Shape.value_ne_symbol (taken : Bool) {l' : String × Operand} (hl : l ∈ (site.arm taken).locals)
    (hl' : l' ∈ (site.arm taken).locals) : l.2.var ≠ some l'.1 := by
  obtain ⟨i, hi, -, hvalue⟩ := h.mem_locals hl
  rw [← hvalue]
  exact h.operand_ne_symbol hnames hl' hi (Or.inl rfl)

/-- A symbol of an arm is not the name of a temporary of an arm. -/
theorem Shape.symbol_ne_temp (hl : l ∈ (site.arm taken).locals) (taken' : Bool) {i : Inst}
    (hi : i ∈ (site.arm taken').insns) : i.dest.var ≠ some l.1 := by
  obtain ⟨j, hj, hassign, -⟩ := h.mem_locals hl
  obtain ⟨hmem, -, htemp⟩ := h.insns_mem taken' hi
  obtain ⟨x, hk, hn⟩ := htemp.dest
  have := hnames i (mem_instructions hmem) j (mem_instructions hj) i.dest (by simp [Inst.operands])
    j.dest (by simp [Inst.operands]) hk hassign.kind (by rw [hn]; rfl)
  intro heq
  rw [Operand.var, if_pos (Or.inl hk)] at heq
  exact this (heq.trans hassign.name.symm)

/-- The arms keep their assignments apart from their temporaries. -/
theorem Shape.armApart (hsafe : site.Safe fn branch) (taken : Bool) : ArmApart (site.armCode fn branch taken) := by
  obtain ⟨hinsns, hlocals, -, -, -⟩ := IfConvArm.scan_spec (h.scan taken)
  have hinsn : ∀ i ∈ site.armCode fn branch taken, i.isTempWrite = true → i ∈ (site.arm taken).insns := by
    intro i hi hwrite
    rw [hinsns]
    exact mem_filter.mpr ⟨hi, hwrite⟩
  refine ⟨fun i hi hwrite => hsafe.concat i (mem_insns_arm (hinsn i hi hwrite)),
    fun i hi j hj x o hassign hwrite => ?_, hsafe.settled taken⟩
  have hl : (x, o) ∈ (site.arm taken).locals := by
    rw [hlocals]
    exact mem_filterMap.mpr ⟨i, hi, hassign⟩
  have htemp := (h.insns_mem taken (hinsn j hj hwrite)).2.2
  refine ⟨?_, h.symbol_ne_temp hnames hl taken (hinsn j hj hwrite)⟩
  unfold Inst.readsName
  rw [List.any_eq_false]
  intro q hq hvar
  refine h.operand_ne_symbol hnames hl hj ?_ (of_decide_eq_true hvar)
  have hop := htemp.op
  simp only [mem_cons, not_mem_nil, or_false] at hop
  unfold Inst.sources at hq
  rcases hop with hop | hop | hop | hop <;> rw [hop] at hq <;> simp at hq <;> tauto

end

/-! ## The theorem -/

/-- The runs of the branch and of the code that replaces it are at the join label and agree on
everything but the temporaries of the arms. -/
def Joined (site : IfConvSite) (branch : ℕ) (cond : Operand) (c c' : Config W) : Prop :=
  ∃ s₁ s₂, c = .at site.joinLabel s₁ ∧ c' = .at (branch + (site.seq cond).length) s₂ ∧
    s₂.world = s₁.world ∧
    ∀ x, (∀ i ∈ site.thenArm.insns ++ site.elseArm.insns, i.dest.var ≠ some x) → s₂.env x = s₁.env x

/-- The temporaries of an arm run to the end from every state. -/
theorem execAll_insns {temps : List Inst} (htemps : ∀ i ∈ temps, ∀ t : State W, ∃ t', t.exec H fn i = some t')
    (s : State W) : ∃ t, s.execAll H fn temps = some t := by
  induction temps generalizing s with
  | nil => exact ⟨s, rfl⟩
  | cons i temps ih =>
    obtain ⟨s₁, hfirst⟩ := htemps i (.head _) s
    obtain ⟨t, ht⟩ := ih (fun j hj => htemps j (.tail _ hj)) s₁
    exact ⟨t, by rw [State.execAll, hfirst, bind_some, ht]⟩

/-- The selects, after the temporaries, assign what the taken arm assigns. -/
theorem execAll_selects_arm {addrTaken : String → Bool} (hlaw : H.Lawful addrTaken)
    (hshape : site.Shape fn branch) (hnames : fn.NamesApart) (hsafe : site.Safe fn branch)
    {s : State W} {c : BitVec 64} (hcond : s.fetchInt H (fn.insn branch).lhs = some c)
    (hback : ∀ x ∈ site.selected, x ∉ site.thenNames ∨ x ∉ site.elseNames → s.WritesBack H x)
    (horder : site.selected.filter (· ∈ site.elseNames) = site.elseNames ∨
      ∀ x ∈ site.elseNames, ∀ y ∈ site.elseNames, x ≠ y → H.Commutes x y) :
    s.execAll H fn (site.selected.map (site.select (fn.insn branch).lhs)) =
      s.assignAll H (site.arm (c ≠ 0)).locals := by
  obtain ⟨-, -, -, hthen, -⟩ := IfConvArm.scan_spec hshape.then_arm
  obtain ⟨-, -, -, helse, -⟩ := IfConvArm.scan_spec hshape.else_arm
  have hnodup := selected_nodup hthen helse
  rw [State.execAll_selects hlaw hcond hsafe.cond_symbol]
  -- the condition picks the then values or the else values of the selects
  by_cases hc : c ≠ 0
  · rw [if_pos hc, show site.arm (c ≠ 0) = site.thenArm by rw [arm, if_pos (decide_eq_true hc)],
      State.assignAll_self hlaw (· ∈ site.thenNames) (fun x hx hp => ?_) hnodup,
      selected_filter_then hthen helse]
    · rw [thenNames, IfConvArm.map_value hthen]
    · rw [decide_eq_false_iff_not] at hp
      exact ⟨by rw [IfConvArm.value_of_not_mem hp, getD_none], hback x hx (Or.inl hp)⟩
  · rw [if_neg hc, show site.arm (c ≠ 0) = site.elseArm by rw [arm, if_neg (by simpa using hc)],
      State.assignAll_self hlaw (· ∈ site.elseNames) (fun x hx hp => ?_) hnodup]
    · rcases horder with horder | hcomm
      · rw [horder, elseNames, IfConvArm.map_value helse]
      · -- the else arm assigns in another order
        have hperm := (selected_filter_else hthen helse).map fun x =>
          (x, (site.elseArm.value x).getD (.ofSymbol x))
        rw [show site.elseNames.map (fun x => (x, (site.elseArm.value x).getD (.ofSymbol x))) =
          site.elseArm.locals from IfConvArm.map_value helse] at hperm
        refine State.assignAll_perm hlaw hperm fun a ha b hb hab => ?_
        have ha' := hperm.mem_iff.mp ha
        have hb' := hperm.mem_iff.mp hb
        have hne : a.1 ≠ b.1 := fun heq => hab (inj_on_of_nodup_map helse ha' hb' heq)
        exact ⟨hne, hshape.value_ne_symbol hnames false ha' hb', hshape.value_ne_symbol hnames false hb' ha',
          hcomm a.1 (List.mem_map_of_mem ha') b.1 (List.mem_map_of_mem hb') hne⟩
    · rw [decide_eq_false_iff_not] at hp
      exact ⟨by rw [IfConvArm.value_of_not_mem hp, getD_none], hback x hx (Or.inr hp)⟩

end IfConvSite

namespace IfConvSite

variable {site : IfConvSite} {fn : Function} {branch : ℕ}

/-- The state after the temporaries of both arms agrees with the state after those of the taken arm on
everything that arm assigns. -/
theorem temps_agree (hshape : site.Shape fn branch) (hsafe : site.Safe fn branch)
    (htotal : ∀ i ∈ site.thenArm.insns ++ site.elseArm.insns, ∀ t : State W, ∃ t', t.exec H fn i = some t')
    (s : State W) (taken : Bool) :
    ∃ t t', s.execAll H fn (site.arm taken).insns = some t ∧
      s.execAll H fn (site.thenArm.insns ++ site.elseArm.insns) = some t' ∧
      ∃ D : String → Prop, State.AgreeOff D t t' ∧
        (∀ x, D x → ∃ i ∈ site.thenArm.insns ++ site.elseArm.insns, i.dest.var = some x) ∧
        ∀ l ∈ (site.arm taken).locals, ∀ x, l.2.var = some x → ¬ D x := by
  obtain ⟨tT, hT⟩ := execAll_insns (fun i hi => htotal i (mem_append_left _ hi)) s
  obtain ⟨tTE, hTE⟩ := execAll_insns (fun i hi => htotal i (mem_append_right _ hi)) tT
  have htemps : ∀ (taken : Bool), ∀ i ∈ (site.arm taken).insns, i.IsArmTemp ∧ i.concatenates = false :=
    fun taken i hi => ⟨(hshape.insns_mem taken hi).2.2, hsafe.concat i (mem_insns_arm hi)⟩
  have hboth : s.execAll H fn (site.thenArm.insns ++ site.elseArm.insns) = some tTE := by
    rw [State.execAll_append, hT, bind_some, hTE]
  cases taken with
  | true =>
    -- the temporaries of the else arm come after those of the then arm
    refine ⟨tT, tTE, hT, hboth, _, State.execAll_temps_agree (htemps false) hTE, ?_, ?_⟩
    · rintro x ⟨i, hi, hx⟩
      exact ⟨i, mem_append_right _ hi, hx⟩
    · rintro l hl x hx ⟨i, hi, hix⟩
      exact hsafe.then_kept l hl i hi (hx.trans hix.symm)
  | false =>
    -- they start from a state that the then arm has changed
    obtain ⟨hinsns, hlocals, hcode, -, -⟩ := IfConvArm.scan_spec (hshape.scan false)
    obtain ⟨tE, hE⟩ := execAll_insns (fun i hi => htotal i (mem_append_right _ hi)) s
    have hstart : State.AgreeOff (· ∈ site.thenArm.insns.filterMap (·.dest.var)) s tT :=
      (State.execAll_temps_agree (htemps true) hT).mono fun x hx => mem_filterMap.mpr hx
    have hconcat : ∀ i ∈ site.armCode fn branch false, i.isTempWrite = true → i.concatenates = false := by
      intro i hi hwrite
      refine (htemps false i ?_).2
      rw [hinsns]
      exact mem_filter.mpr ⟨hi, hwrite⟩
    have hE' : s.execAll H fn ((site.armCode fn branch false).filter (·.isTempWrite)) = some tE := by
      rw [← hinsns]
      exact hE
    obtain ⟨t', ht', hagree⟩ := State.execAll_unread hcode hconcat hsafe.else_unread hstart hE'
    have heq : t' = tTE := by
      rw [← hinsns] at ht'
      exact some.inj (ht'.symm.trans hTE)
    rw [heq] at hagree
    refine ⟨tE, tTE, hE, hboth, _, hagree, fun x hx => ?_, fun l hl x hx => ?_⟩
    · obtain ⟨i, hi, hix⟩ := mem_filterMap.mp (mem_filter.mp hx).1
      exact ⟨i, mem_append_left _ hi, hix⟩
    · rw [hlocals] at hl
      exact armAssign_not_remaining hcode hsafe.else_unread l hl x hx

end IfConvSite

namespace Function

variable {fn out : Function} {branch : ℕ} {site : IfConvSite}

theorem ArmInst.not_declare {i : Inst} (h : ArmInst i) : i.op ≠ .declareLocal := by
  cases h with
  | nop h => simp [h]
  | temp h =>
    intro hop
    have := h.op
    simp [hop] at this
  | assign x h => simp [h.op]

/-- The code that replaces the branch falls through to the join label. -/
theorem stepN_seq (hsite : fn.ifconvSite branch = some site) (hout : fn.ifconvTryAt branch = some out) (s : State W) :
    stepN H out (site.seq (fn.insn branch).lhs).length (.at branch s) =
      (s.execAll H fn (site.seq (fn.insn branch).lhs)).map (.at (branch + (site.seq (fn.insn branch).lhs).length)) ∧
      out.insn (branch + (site.seq (fn.insn branch).lhs).length) = fn.insn site.joinLabel := by
  have hshape := ifconvSite_shape hsite
  have hlt : branch < fn.instructions.length := by
    have h₁ := hshape.branch_lt
    have h₂ := hshape.jump_lt
    have h₃ := hshape.label_lt
    have h₄ := hshape.join_lt
    omega
  -- the sequence holds temps and copies only, so it runs straight through
  have hinsts : ∀ i ∈ site.seq (fn.insn branch).lhs, i.op.isControl = false ∧ i.op ≠ .declareLocal := by
    have harm : ∀ (taken : Bool), ∀ i ∈ (site.arm taken).insns, i.op.isControl = false ∧ i.op ≠ .declareLocal := by
      intro taken i hi
      have htemp := ArmInst.temp (hshape.insns_mem taken hi).2.2
      exact ⟨htemp.not_control, ArmInst.not_declare htemp⟩
    intro i hi
    rw [IfConvSite.seq, mem_append, mem_append, List.mem_map] at hi
    rcases hi with (hi | hi) | ⟨x, -, rfl⟩
    · exact harm true i hi
    · exact harm false i hi
    · exact ⟨rfl, Opcode.noConfusion⟩
  have hout' : out.instructions = fn.instructions.take branch ++
      (site.seq (fn.insn branch).lhs ++ fn.instructions.drop site.joinLabel) := by
    rw [ifconvTryAt, hsite, map_some] at hout
    rw [← some.inj hout, append_assoc]
  have htake : (fn.instructions.take branch).length = branch := by
    rw [length_take]
    omega
  generalize site.seq (fn.insn branch).lhs = code at hinsts hout' ⊢
  have hdrop : out.instructions.drop branch = code ++ fn.instructions.drop site.joinLabel := by
    rw [hout', drop_append_of_le_length (by omega), drop_eq_nil_of_le (by omega), nil_append]
  have hslice : out.slice branch (branch + code.length) = code := by
    rw [slice, hdrop, Nat.add_sub_cancel_left, take_left]
  have hlength : branch + code.length ≤ out.instructions.length := by
    rw [hout', length_append, length_append, htake]
    omega
  constructor
  · have hrun := stepN_straight (H := H) s (Nat.le_add_right branch code.length) hlength
      fun k hk hk' => (hinsts _ (hslice ▸ insn_mem_slice hk hk' (by omega))).1
    rw [Nat.add_sub_cancel_left, hslice] at hrun
    rw [hrun, execAll_function fun i hi => (hinsts i hi).2]
  · have hget : out.instructions[branch + code.length]? = fn.instructions[site.joinLabel]? := by
      rw [← List.getElem?_drop, hdrop, List.getElem?_append_right (le_refl _), Nat.sub_self,
        List.getElem?_drop, Nat.add_zero]
    unfold insn
    rw [getD_eq_getElem?_getD, getD_eq_getElem?_getD, hget]

/-- At a branch that the pass accepts and that meets the conditions it does not check, the code that
replaces it leaves the same symbols at the join label as the arm that is taken, and evaluates nothing
that can stop. -/
theorem ifConvert_preserves {addrTaken : String → Bool} (hlaw : H.Lawful addrTaken) (hread : H.Readable)
    (hsite : fn.ifconvSite branch = some site) (hout : fn.ifconvTryAt branch = some out)
    (hwf : site.WellFormed fn H.floats) (hsafe : site.Safe fn branch) (s : State W) (v : Value)
    (hv : s.fetch H (fn.insn branch).lhs = some v) (htruth : H.floats.asInt v ≠ 0 ↔ v.truth = true)
    (hback : ∀ x ∈ site.selected, x ∉ site.thenNames ∨ x ∉ site.elseNames → s.WritesBack H x)
    (horder : site.selected.filter (· ∈ site.elseNames) = site.elseNames ∨
      ∀ x ∈ site.elseNames, ∀ y ∈ site.elseNames, x ≠ y → H.Commutes x y) :
    (∀ i ∈ site.thenArm.insns ++ site.elseArm.insns, ∀ t : State W, ∃ t', t.exec H out i = some t') ∧
      out.insn (branch + (site.seq (fn.insn branch).lhs).length) = fn.insn site.joinLabel ∧
      Option.Rel (site.Joined branch (fn.insn branch).lhs)
        (stepN H fn (site.armSteps branch v.truth) (.at branch s))
        (stepN H out (site.seq (fn.insn branch).lhs).length (.at branch s)) := by
  have hshape := ifconvSite_shape hsite
  have harm : ∀ i ∈ site.thenArm.insns ++ site.elseArm.insns, i.IsArmTemp := by
    intro i hi
    rcases List.mem_append.mp hi with hi | hi
    · exact (hshape.insns_mem true hi).2.2
    · exact (hshape.insns_mem false hi).2.2
  have htotal : ∀ (f : Function), ∀ i ∈ site.thenArm.insns ++ site.elseArm.insns, ∀ t : State W,
      ∃ t', t.exec H f i = some t' := fun f i hi t =>
    State.exec_arm_isSome (harm i hi) (hsafe.concat i hi) (hwf.known i hi) (hwf.values i hi) hread t
  obtain ⟨hseq, hjoin⟩ := stepN_seq (H := H) hsite hout s
  refine ⟨htotal out, hjoin, ?_⟩
  obtain ⟨t, t', ht, ht', D, hagree, hD, hvalues⟩ :=
    site.temps_agree hshape hsafe (htotal fn) s v.truth
  -- the branch: the temporaries of the taken arm, then its assignments
  have hbranch : stepN H fn (site.armSteps branch v.truth) (.at branch s) =
      (t.assignAll H (site.arm v.truth).locals).map (.at site.joinLabel) := by
    obtain ⟨hinsns, hlocals, hcode, -, -⟩ := IfConvArm.scan_spec (hshape.scan v.truth)
    rw [stepN_branch hshape hwf.labels hv,
      State.execAll_split hlaw hcode (hshape.armApart hwf.names hsafe v.truth), ← hinsns, ht,
      Option.bind_some, ← hlocals]
  -- its replacement: the temporaries of both arms, then the selects
  have hkeep : State.AgreeOff (fun x => ∃ i ∈ site.thenArm.insns ++ site.elseArm.insns,
      i.dest.var = some x) s t' :=
    State.execAll_temps_agree (fun i hi => ⟨harm i hi, hsafe.concat i hi⟩) ht'
  have hcond : t'.fetchInt H (fn.insn branch).lhs = some (H.floats.asInt v) := by
    unfold State.fetchInt
    rw [State.fetch_agree hkeep, hv, Option.map_some]
    rintro x hx ⟨i, hi, hix⟩
    exact hsafe.cond_temp i hi (hix.trans hx.symm)
  have hsymbol : ∀ {taken : Bool}, ∀ l ∈ (site.arm taken).locals,
      ¬ ∃ i ∈ site.thenArm.insns ++ site.elseArm.insns, i.dest.var = some l.1 := by
    rintro taken l hl ⟨i, hi, hix⟩
    rcases List.mem_append.mp hi with hi | hi
    · exact hshape.symbol_ne_temp hwf.names hl true hi hix
    · exact hshape.symbol_ne_temp hwf.names hl false hi hix
  have hback' : ∀ x ∈ site.selected, x ∉ site.thenNames ∨ x ∉ site.elseNames → t'.WritesBack H x := by
    intro x hx hone
    obtain ⟨taken, l, hl, rfl⟩ := site.mem_selected hshape hx
    unfold State.WritesBack
    rw [hkeep.env l.1 (hsymbol l hl)]
    exact hback l.1 hx hone
  have hreplace : stepN H out (site.seq (fn.insn branch).lhs).length (.at branch s) =
      (t'.assignAll H (site.arm v.truth).locals).map
        (.at (branch + (site.seq (fn.insn branch).lhs).length)) := by
    have hdecide : decide (H.floats.asInt v ≠ 0) = v.truth := by
      rw [Bool.eq_iff_iff, decide_eq_true_eq]
      exact htruth
    rw [hseq, IfConvSite.seq, State.execAll_append, ht', Option.bind_some,
      IfConvSite.execAll_selects_arm hlaw hshape hwf.names hsafe hcond hback' horder, hdecide]
  rw [hbranch, hreplace]
  have hdest : ∀ l ∈ (site.arm v.truth).locals, ¬ D l.1 := fun l hl hd => hsymbol l hl (hD l.1 hd)
  refine Lib.rel_of_imp (fun c hc => ?_) (fun c hc => ?_)
  · obtain ⟨s₁, hs₁, rfl⟩ := Option.map_eq_some_iff.mp hc
    obtain ⟨s₂, hs₂, hend⟩ := State.assignAll_agree hagree hdest hvalues hs₁
    refine ⟨_, by rw [hs₂, Option.map_some], s₁, s₂, rfl, rfl, hend.world, fun x hx => hend.env x ?_⟩
    intro hd
    obtain ⟨i, hi, hix⟩ := hD x hd
    exact hx i hi hix
  · obtain ⟨s₂, hs₂, rfl⟩ := Option.map_eq_some_iff.mp hc
    obtain ⟨s₁, hs₁, -⟩ := State.assignAll_agree hagree.symm hdest hvalues hs₂
    exact ⟨_, by rw [hs₁, Option.map_some]⟩

/-- A branch: the first arm assigns a sum to `y`, the second a constant to `x`. -/
def diamond : Function where
  instructions := [
    { op := .branchZero, lhs := .ofSymbol "c", text := some "else" },
    { op := .binary, dest := .ofTemp ".t0", lhs := .ofSymbol "a", rhs := .ofSymbol "x", text := some "+" },
    { op := .assign, dest := .ofSymbol "y", lhs := .ofTemp ".t0" },
    { op := .jump, text := some "end" },
    { op := .label, text := some "else" },
    { op := .assign, dest := .ofSymbol "x", lhs := .ofInt 7 },
    { op := .label, text := some "end" },
    { op := .return, lhs := .ofSymbol "x" }]

/-- A host in which every global is zero. -/
def zeroHost : Host Unit := { Host.scalars with loadVar := fun _ _ => some (.ofInt 0) }

theorem zeroHost_lawful : zeroHost.Lawful fun _ => false where
  storeVar := fun h => by cases h
  declareVar := fun h => by cases h
  concat := fun h => by cases h
  new := fun h => by cases h
  store := fun h => by cases h
  kernel := fun h => by cases h

/-- The state in which every variable is one. -/
def ones : State Unit where
  env := fun _ => some { value := .ofInt 1, size := 8 }
  world := ()

/-- In its state every variable writes back what it holds. -/
theorem ones_writesBack (x : String) : ones.WritesBack zeroHost x := by
  refine ⟨fun var hvar => ?_, fun hnone => by cases hnone⟩
  cases hvar
  rfl

/-- The arms of the diamond. -/
def diamondSite : IfConvSite where
  thenJump := 3
  elseLabel := 4
  joinLabel := 6
  thenArm := { insns := [diamond.insn 1], locals := [("y", .ofTemp ".t0")] }
  elseArm := { locals := [("x", .ofInt 7)] }

/-- The diamond without its branch leaves the same `x` and `y` at its end. -/
theorem ifConvert_preserves_diamond :
    diamond.ifconvSite 0 = some diamondSite ∧
      ∃ out, diamond.ifconvTryAt 0 = some out ∧
        Option.Rel (diamondSite.Joined 0 (.ofSymbol "c")) (stepN zeroHost diamond 4 (.at 0 ones))
          (stepN zeroHost out 3 (.at 0 ones)) := by
  have hsite : diamond.ifconvSite 0 = some diamondSite := by decide
  obtain ⟨out, hout⟩ : ∃ out, diamond.ifconvTryAt 0 = some out :=
    ⟨_, by rw [ifconvTryAt, hsite, Option.map_some]⟩
  have hwf : diamondSite.WellFormed diamond zeroHost.floats :=
    ⟨by unfold LabelsDistinct; decide, by unfold NamesApart; decide, by decide,
      by decide⟩
  have hsafe : diamondSite.Safe diamond 0 :=
    ⟨by decide, by decide, by decide, by decide, by decide,
      by decide⟩
  exact ⟨hsite, out, hout, (ifConvert_preserves zeroHost_lawful (fun _ _ => ⟨_, rfl⟩) hsite hout hwf hsafe
    ones (.ofInt 1) rfl (by decide) (fun x _ _ => ones_writesBack x)
    (Or.inl (by decide))).2.2⟩

/-- An arm that clears the condition before it sets another variable. -/
def clearing : Function where
  instructions := [
    { op := .branchZero, lhs := .ofSymbol "c", text := some "else" },
    { op := .assign, dest := .ofSymbol "c", lhs := .ofInt 0 },
    { op := .assign, dest := .ofSymbol "x", lhs := .ofInt 2 },
    { op := .jump, text := some "end" },
    { op := .label, text := some "else" },
    { op := .label, text := some "end" },
    { op := .return, lhs := .ofSymbol "x" }]

/-- The arm of `clearing`. -/
def clearingSite : IfConvSite where
  thenJump := 3
  elseLabel := 4
  joinLabel := 5
  thenArm := { locals := [("c", .ofInt 0), ("x", .ofInt 2)] }
  elseArm := {}

/-- The second select reads the condition that the first has cleared: `x` keeps its old value. -/
theorem ifConvert_rereads_condition :
    ¬ ∀ (fn out : Function) (branch : ℕ) (site : IfConvSite) (s : State Unit) (v : Value),
      fn.ifconvSite branch = some site → fn.ifconvTryAt branch = some out →
      site.WellFormed fn zeroHost.floats → s.fetch zeroHost (fn.insn branch).lhs = some v →
      (zeroHost.floats.asInt v ≠ 0 ↔ v.truth = true) → (∀ x, s.WritesBack zeroHost x) →
      Option.Rel (site.Joined branch (fn.insn branch).lhs)
        (stepN zeroHost fn (site.armSteps branch v.truth) (.at branch s))
        (stepN zeroHost out (site.seq (fn.insn branch).lhs).length (.at branch s)) := by
  intro h
  have hsite : clearing.ifconvSite 0 = some clearingSite := by decide
  have hwf : clearingSite.WellFormed clearing zeroHost.floats :=
    ⟨by unfold LabelsDistinct; decide, by unfold NamesApart; decide, by decide,
      by decide⟩
  obtain ⟨out, hout⟩ : ∃ out, clearing.ifconvTryAt 0 = some out :=
    ⟨_, by rw [ifconvTryAt, hsite, Option.map_some]⟩
  have hrel := h clearing out 0 clearingSite ones (.ofInt 1) hsite hout hwf rfl (by decide)
    ones_writesBack
  have hbranch : (stepN zeroHost clearing 4 (.at 0 ones)).bind (·.var "x") =
      some { value := .ofInt 2, size := 8 } := by decide
  have hreplace : ((clearing.ifconvTryAt 0).bind fun out =>
      (stepN zeroHost out 2 (.at 0 ones)).bind (·.var "x")) = some { value := .ofInt 1, size := 8 } := by
    decide
  rw [hout, Option.bind_some] at hreplace
  obtain ⟨c, hc, hx⟩ := Option.bind_eq_some_iff.mp hbranch
  obtain ⟨c', hc', hx'⟩ := Option.bind_eq_some_iff.mp hreplace
  have hsteps : clearingSite.armSteps 0 (Value.ofInt 1).truth = 4 := by decide
  have hlength : (clearingSite.seq (clearing.insn 0).lhs).length = 2 := by decide
  rw [hsteps, hlength, hc, hc', Option.rel_some_some] at hrel
  obtain ⟨s₁, s₂, rfl, rfl, -, henv⟩ := hrel
  have heq := henv "x" (by decide)
  rw [show s₁.env "x" = _ from hx, show s₂.env "x" = _ from hx'] at heq
  exact absurd heq (by decide)

end Function

end Mettle.Ir

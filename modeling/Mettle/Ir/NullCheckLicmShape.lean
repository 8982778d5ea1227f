import Mettle.Ir.NullCheckLicm
import Mettle.Ir.IfConvertSound

/-!
# Where hoisted null checks stand

What the matcher of a check and the scan of its loop establish, the runs through a check
(`NullCheckAt.passes`, `NullCheckAt.traps`), and where instructions and labels are after a hoist.
-/

namespace Mettle.Ir

open Lib List Option

variable {W : Type} {H : Host W} {fn : Function}

/-! ## The check -/

/-- A check stands at an index, and its branches reach its own labels. -/
structure NullCheckAt (fn : Function) (check : ℕ) (d : NullTrapDiamond) : Prop where
  branch_op : (fn.insn check).op = .branchZero
  jump_lt : check < d.jump
  jump_op : (fn.insn d.jump).op = .jump
  trap_lt : d.jump < d.trapLabel
  trap_op : (fn.insn d.trapLabel).op = .label
  call_lt : d.trapLabel < d.call
  call_op : (fn.insn d.call).op = .call
  call_text : (fn.insn d.call).text = some "mettle_crash_trap" ∨
    (fn.insn d.call).text = some "mettle_crash_trap_ex"
  ok_gt : d.call < d.okLabel
  ok_op : (fn.insn d.okLabel).op = .label
  ok_lt : d.okLabel < fn.instructions.length
  nops : ∀ k, check < k → k < d.okLabel → k ≠ d.jump → k ≠ d.trapLabel → k ≠ d.call → (fn.insn k).op = .nop
  trap_found : fn.findLabel (fn.insn check).text = some d.trapLabel
  ok_found : fn.findLabel (fn.insn d.jump).text = some d.okLabel

/-- A text with a prefix is there. -/
theorem hasPrefix_isSome {start : String} {text : Option String} (h : hasPrefix start text = true) :
    text.isSome = true := by
  cases text with
  | none => exact h
  | some text => rfl

/-- The search skips `NOP`s only. -/
theorem Function.findNextNonNop_spec {start k : ℕ} (h : fn.findNextNonNop start = some k) :
    start ≤ k ∧ k < fn.instructions.length ∧ ∀ j, start ≤ j → j < k → (fn.insn j).op = .nop := by
  obtain ⟨hle, hlt, -, hbefore⟩ := firstFrom_spec h
  refine ⟨hle, hlt, fun j hj hjk => ?_⟩
  simpa using hbefore j hj hjk

/-- A diamond that is matched is a null check. -/
theorem Function.matchNullTrapDiamond_spec {check : ℕ} {d : NullTrapDiamond}
    (h : fn.matchNullTrapDiamond check = some d) (hlabels : fn.LabelsDistinct) : NullCheckAt fn check d := by
  simp only [matchNullTrapDiamond, bind_eq_bind, bind_eq_some_iff, guard_eq_some',
    exists_const, some.injEq] at h
  obtain ⟨⟨-, hbranch, -, hprefix⟩, x, -, jump, hjump, ⟨hjop, hjprefix⟩, trapLabel, htrap, ⟨htop, httext⟩,
    call, hcall, ⟨hcop, hctext⟩, okLabel, hok, ⟨hoop, hotext⟩, rfl⟩ := h
  obtain ⟨h₁, h₁', hn₁⟩ := findNextNonNop_spec hjump
  obtain ⟨h₂, h₂', hn₂⟩ := findNextNonNop_spec htrap
  obtain ⟨h₃, h₃', hn₃⟩ := findNextNonNop_spec hcall
  obtain ⟨h₄, h₄', hn₄⟩ := findNextNonNop_spec hok
  exact {
    branch_op := hbranch
    jump_lt := h₁
    jump_op := hjop
    trap_lt := h₂
    trap_op := htop
    call_lt := h₃
    call_op := hcop
    call_text := hctext
    ok_gt := h₄
    ok_op := hoop
    ok_lt := h₄'
    nops := by
      intro k hk (hk' : k < okLabel) (hne : k ≠ jump) (hne' : k ≠ trapLabel) (hne'' : k ≠ call)
      rcases Nat.lt_or_ge k jump with hlt | hge
      · exact hn₁ k hk hlt
      rcases Nat.lt_or_ge k trapLabel with hlt | hge'
      · exact hn₂ k (by omega) hlt
      rcases Nat.lt_or_ge k call with hlt | hge''
      · exact hn₃ k (by omega) hlt
      · exact hn₄ k (by omega) hk'
    trap_found := by
      rw [← httext]
      exact findLabel_eq hlabels h₂' htop (httext ▸ hasPrefix_isSome hprefix)
    ok_found := by
      rw [← hotext]
      exact findLabel_eq hlabels h₄' hoop (hotext ▸ hasPrefix_isSome hjprefix) }

/-- The runtime's trap does not return. -/
def Host.TrapStops (H : Host W) : Prop :=
  ∀ w i args, i.op = .call → (i.text = some "mettle_crash_trap" ∨ i.text = some "mettle_crash_trap_ex") →
    H.call w i args = none

variable (H) in
/-- An operand reads as something other than zero. -/
def State.Nonnull (s : State W) (o : Operand) : Prop := ∃ v, s.fetch H o = some v ∧ v.truth = true

section

variable {pc : ℕ} (hpc : pc < fn.instructions.length)
include hpc

/-- A `branch_zero` whose operand is not zero falls through. -/
theorem advance_branchZero_next {s : State W} (hop : (fn.insn pc).op = .branchZero) (h : s.Nonnull H (fn.insn pc).lhs) :
    advance H fn (.at pc s) = some (.at (pc + 1) s) := by
  obtain ⟨v, hv, htruth⟩ := h
  rw [advance_land hpc, State.leave, hop]
  simp [hv, htruth, Exit.land]

/-- A branch on zero that is taken. -/
theorem advance_branchZero_goto {s : State W} {v : Value} (hop : (fn.insn pc).op = .branchZero)
    (hv : s.fetch H (fn.insn pc).lhs = some v) (hzero : v.truth = false) :
    advance H fn (.at pc s) = (fn.findLabel (fn.insn pc).text).map fun t => .at t s := by
  rw [advance_land hpc, State.leave, hop]
  simp [hv, hzero, Exit.land]

/-- A branch whose condition has no value is stuck. -/
theorem advance_branchZero_stuck {s : State W} (hop : (fn.insn pc).op = .branchZero)
    (hv : s.fetch H (fn.insn pc).lhs = none) : advance H fn (.at pc s) = none := by
  rw [advance_land hpc, State.leave, hop]
  simp [hv]

/-- A jump. -/
theorem advance_jump {s : State W} (hop : (fn.insn pc).op = .jump) :
    advance H fn (.at pc s) = (fn.findLabel (fn.insn pc).text).map fun t => .at t s := by
  rw [advance_land hpc, State.leave, hop]
  rfl

/-- A label changes nothing. -/
theorem advance_label {s : State W} (hop : (fn.insn pc).op = .label) : advance H fn (.at pc s) = some (.at (pc + 1) s) := by
  rw [advance_land hpc, State.leave_of_not_control (by rw [hop]; rfl)]
  simp [State.exec, State.effect, Inst.results, State.storeAll, hop, Exit.land]

end

namespace NullCheckAt

variable {check : ℕ} {d : NullTrapDiamond} {s : State W}

/-- A check that passes arrives behind it. -/
theorem passes (h : NullCheckAt fn check d) (hs : s.Nonnull H (fn.insn check).lhs) :
    PathOn (advance H fn) (Config.From check) (.at check s) (.at (d.okLabel + 1) s) := by
  have h₁ := h.jump_lt
  have h₂ := h.trap_lt
  have h₃ := h.call_lt
  have h₄ := h.ok_gt
  have h₅ := h.ok_lt
  have hbranch := advance_branchZero_next (by omega) h.branch_op hs
  have hnops := path_nops (H := H) s (show check + 1 ≤ d.jump by omega) (by omega) fun k hk hk' =>
    h.nops k (by omega) (by omega) (by omega) (by omega) (by omega)
  have hjump : advance H fn (.at d.jump s) = some (.at d.okLabel s) := by
    rw [advance_jump (by omega) h.jump_op, h.ok_found, map_some]
  have hlabel := advance_label (H := H) (s := s) h₅ h.ok_op
  apply pathOn_at le_rfl hbranch
  apply (hnops.mono fun c hc => hc.mono (Nat.le_succ check)).trans
  apply path_at (by omega) hjump
  exact path_at (by omega) hlabel .refl

/-- A check that does not pass stops the activation and leaves the host alone. -/
theorem traps (h : NullCheckAt fn check d) (hhost : H.TrapStops) (hs : ¬ s.Nonnull H (fn.insn check).lhs) :
    Outcome H fn (.at check s) (none, s.world) := by
  have h₁ := h.jump_lt
  have h₂ := h.trap_lt
  have h₃ := h.call_lt
  have h₄ := h.ok_gt
  have h₅ := h.ok_lt
  cases hv : s.fetch H (fn.insn check).lhs with
  | none => exact Ends.stop (advance_branchZero_stuck (by omega) h.branch_op hv)
  | some v =>
    have hzero : v.truth = false := by
      by_contra htruth
      exact hs ⟨v, hv, by simpa using htruth⟩
    have hbranch : advance H fn (.at check s) = some (.at d.trapLabel s) := by
      rw [advance_branchZero_goto (by omega) h.branch_op hv hzero, h.trap_found, map_some]
    have hlabel := advance_label (H := H) (s := s) (by omega) h.trap_op
    have hnops := path_nops (H := H) s (show d.trapLabel + 1 ≤ d.call by omega) (by omega) fun k hk hk' =>
      h.nops k (by omega) (by omega) (by omega) (by omega) (by omega)
    have hcall : advance H fn (.at d.call s) = none := by
      have hexec : s.exec H fn (fn.insn d.call) = none := by
        unfold State.exec State.effect
        rw [if_neg (by rw [h.call_op]; decide), h.call_op]
        cases (fn.insn d.call).arguments.mapM (s.fetchArg H) with
        | none => rfl
        | some args => simp [hhost s.world (fn.insn d.call).shape args h.call_op h.call_text]
      rw [advance_land (by omega), State.leave_of_not_control (by rw [h.call_op]; rfl), hexec]
      rfl
    exact (ends_step hbranch).mpr ((ends_step hlabel).mpr ((ends_path hnops).mpr (Ends.stop hcall)))

end NullCheckAt

/-! ## The function after a hoist -/

namespace NullhoistSite

/-- What the scan of the loop establishes. -/
structure Shape (site : NullhoistSite) (fn : Function) (header : ℕ) : Prop where
  header_op : (fn.insn header).op = .label
  entry_gt : header < site.entryBranch
  prefix_op : ∀ k, header < k → k < site.entryBranch → (fn.insn k).nullhoistCloneableCondOp = true
  entry_op : (fn.insn site.entryBranch).op = .branchZero
  check_gt : site.entryBranch < site.check
  straight : ∀ k, site.entryBranch < k → k < site.check →
    (fn.insn k).op ∉ ([.label, .jump, .branchZero, .branchEq] : List Opcode)
  check : NullCheckAt fn site.check site.diamond

/-- What is copied falls through. -/
theorem cloneable_not_control {i : Inst} (h : i.nullhoistCloneableCondOp = true) :
    i.op.isControl = false ∧ i.op ≠ .label := by
  have hmem := of_decide_eq_true h
  simp only [mem_cons, not_mem_nil, or_false] at hmem
  rcases hmem with hop | hop | hop | hop | hop | hop | hop <;> rw [hop] <;> decide

/-- The instructions of the copied entry test. -/
def testLength (site : NullhoistSite) (header : ℕ) : ℕ := site.entryBranch - (header + 1)

/-- The instructions of the check. -/
def span (site : NullhoistSite) : ℕ := site.diamond.okLabel + 1 - site.check

/-- Where the copied check begins. -/
def checkCopy (site : NullhoistSite) (header : ℕ) : ℕ := header + site.testLength header + 1

/-- `total`. -/
def total (site : NullhoistSite) (header : ℕ) : ℕ := site.testLength header + 1 + site.span + 1

/-- Where an instruction is after the hoist: the check in front of the loop. -/
def place (site : NullhoistSite) (header k : ℕ) : ℕ :=
  if k < header then k
  else if site.check ≤ k ∧ k ≤ site.diamond.okLabel then site.checkCopy header + (k - site.check)
  else k + site.total header

/-- A site that the pass finds is a loop with the check in it. -/
theorem shape_of_site {site : NullhoistSite} {header : ℕ} (h : fn.nullhoistSite header = some site)
    (hlabels : fn.LabelsDistinct) : site.Shape fn header := by
  simp only [Function.nullhoistSite, bind_eq_bind, bind_eq_some_iff, guard_eq_some',
    exists_const] at h
  obtain ⟨⟨hop, -⟩, backedge, -, hfind⟩ := h
  obtain ⟨check, -, hsite⟩ := List.exists_of_findSome?_eq_some hfind
  simp only [Function.nullhoistSiteAt, Function.nullhoistFindEntryTest, bind_eq_bind,
    bind_eq_some_iff, guard_eq_some', exists_const, some.injEq] at hsite
  obtain ⟨d, hd, -, entry, ⟨k, hk, ⟨-, hend⟩, rfl⟩, ⟨hlt, hstraight⟩, -, rfl⟩ := hsite
  obtain ⟨hgt, -, -, hbefore⟩ := Function.firstFrom_spec hk
  have hcheck := Function.matchNullTrapDiamond_spec hd hlabels
  exact {
    header_op := hop
    entry_gt := hgt
    prefix_op := by
      intro j hj hjk
      have := hbefore j hj hjk
      simp only [Bool.decide_or, Bool.or_eq_false_iff, decide_eq_false_iff_not, not_not] at this
      exact this.2
    entry_op := by
      exact (of_decide_eq_true hend).1
    check_gt := hlt
    straight := by
      intro j hj hjc
      have hlen : j < fn.instructions.length := by
        by_contra hle
        have hbranch := hcheck.branch_op
        rw [Function.insn_of_length_le (by have : j < check := hjc; omega)] at hbranch
        cases hbranch
      have hmem : fn.insn j ∈ fn.slice (k + 1) check := Function.insn_mem_slice hj hjc hlen
      exact of_decide_eq_true (List.all_eq_true.mp hstraight _ hmem)
    check := hcheck }

/-- What the scan of the loop has established when a check is hoisted, up to the first jump back. -/
theorem scanned_of_site {site : NullhoistSite} {header backedge : ℕ} (h : fn.nullhoistSite header = some site)
    (hback : fn.firstJumpTo header (fn.insn header).text = some backedge) :
    fn.nullhoistSafe header backedge site.check site.diamond = true ∧
      (fn.insn site.check).lhs.kind = .symbol ∧ (fn.insn site.check).lhs.name = some site.diamond.symbolName := by
  simp only [Function.nullhoistSite, bind_eq_bind, bind_eq_some_iff, guard_eq_some', exists_const, hback,
    Option.some.injEq, exists_eq_left'] at h
  obtain ⟨-, hfind⟩ := h
  obtain ⟨check, -, hsite⟩ := List.exists_of_findSome?_eq_some hfind
  simp only [Function.nullhoistSiteAt, bind_eq_bind, bind_eq_some_iff, guard_eq_some', exists_const,
    some.injEq] at hsite
  obtain ⟨d, hd, ⟨-, hsafe⟩, entry, -, -, -, rfl⟩ := hsite
  refine ⟨hsafe, ?_⟩
  simp only [Function.matchNullTrapDiamond, bind_eq_bind, bind_eq_some_iff, guard_eq_some', exists_const,
    some.injEq] at hd
  obtain ⟨⟨-, -, hkind, -⟩, name, hname, jump, -, -, trap, -, -, call, -, -, ok, -, -, rfl⟩ := hd
  exact ⟨hkind, hname⟩

section

variable {site : NullhoistSite} {header k : ℕ} {skip : String} (h : site.Shape fn header)

include h

/-- The header, the branch, the check and its end, in this order. -/
theorem Shape.bounds : header < site.entryBranch ∧ site.entryBranch < site.check ∧
    site.check < site.diamond.okLabel ∧ site.diamond.okLabel < fn.instructions.length := by
  have h₁ := h.check.jump_lt
  have h₂ := h.check.trap_lt
  have h₃ := h.check.call_lt
  have h₄ := h.check.ok_gt
  exact ⟨h.entry_gt, h.check_gt, by omega, h.check.ok_lt⟩

/-- The copies are as many as the test and the check need. -/
theorem Shape.length_snapshot : (fn.nullhoistSnapshot header site skip).length = site.total header := by
  obtain ⟨h₁, h₂, h₃, h₄⟩ := h.bounds
  unfold Function.nullhoistSnapshot total testLength span
  rw [length_append, length_cons, length_append, Function.slice_length (by omega),
    Function.slice_length (by omega), length_singleton]
  omega

/-- The function grows by the copies. -/
theorem Shape.out_length :
    (fn.nullhoist header site skip).instructions.length = fn.instructions.length + site.total header := by
  unfold Function.nullhoist
  rw [Function.length_insertAt, Function.length_mapRange, h.length_snapshot]

/-- The instructions before the header stay. -/
theorem Shape.out_before (hk : k < header) : (fn.nullhoist header site skip).insn k = fn.insn k := by
  obtain ⟨h₁, h₂, h₃, h₄⟩ := h.bounds
  unfold Function.nullhoist
  rw [Function.insn_insertAt_before (by rw [Function.length_mapRange]; omega) hk,
    Function.insn_mapRange (by omega), if_neg (by omega)]

/-- The copies stand before the header. -/
theorem Shape.out_new (hk : k < site.total header) :
    (fn.nullhoist header site skip).insn (header + k) = (fn.nullhoistSnapshot header site skip).getD k {} := by
  obtain ⟨h₁, h₂, h₃, h₄⟩ := h.bounds
  exact Function.insn_insertAt_new (by rw [Function.length_mapRange]; omega) (by rwa [h.length_snapshot])

/-- The copy of the entry test. -/
theorem Shape.out_test (hk : k < site.testLength header) :
    (fn.nullhoist header site skip).insn (header + k) = fn.insn (header + 1 + k) := by
  obtain ⟨h₁, h₂, h₃, h₄⟩ := h.bounds
  unfold testLength at hk
  rw [h.out_new (by unfold total testLength; omega), Function.nullhoistSnapshot,
    getD_append _ _ _ _ (by rw [Function.slice_length (by omega)]; omega),
    Function.slice_getD (by omega)]

/-- The copied test skips the copied check when the loop is not entered. -/
theorem Shape.out_guard : (fn.nullhoist header site skip).insn (header + site.testLength header) =
    { op := .branchZero, lhs := (fn.insn site.entryBranch).lhs, text := some skip } := by
  obtain ⟨h₁, h₂, h₃, h₄⟩ := h.bounds
  have hlength : (fn.slice (header + 1) site.entryBranch).length = site.testLength header :=
    Function.slice_length (by omega)
  rw [h.out_new (by unfold total; omega), Function.nullhoistSnapshot,
    getD_append_right _ _ _ _ (by omega), hlength, Nat.sub_self, getD_cons_zero]

/-- The copy of the check. -/
theorem Shape.out_check (hk : k < site.span) :
    (fn.nullhoist header site skip).insn (site.checkCopy header + k) = fn.insn (site.check + k) := by
  obtain ⟨h₁, h₂, h₃, h₄⟩ := h.bounds
  have hlength : (fn.slice (header + 1) site.entryBranch).length = site.testLength header :=
    Function.slice_length (by omega)
  unfold span at hk
  unfold checkCopy
  rw [show header + site.testLength header + 1 + k = header + (site.testLength header + (k + 1)) by omega,
    h.out_new (by unfold total span; omega), Function.nullhoistSnapshot,
    getD_append_right _ _ _ _ (by omega), hlength, Nat.add_sub_cancel_left, getD_cons_succ,
    getD_append _ _ _ _ (by rw [Function.slice_length (by omega)]; omega), Function.slice_getD (by omega)]

/-- The label that skips the copied check. -/
theorem Shape.out_skip : (fn.nullhoist header site skip).insn (site.checkCopy header + site.span) =
    { op := .label, text := some skip } := by
  obtain ⟨h₁, h₂, h₃, h₄⟩ := h.bounds
  have hlength : (fn.slice (header + 1) site.entryBranch).length = site.testLength header :=
    Function.slice_length (by omega)
  have hspan : (fn.slice site.check (site.diamond.okLabel + 1)).length = site.span :=
    Function.slice_length (by omega)
  unfold checkCopy
  rw [show header + site.testLength header + 1 + site.span = header + (site.testLength header + (site.span + 1)) by
      omega, h.out_new (by unfold total; omega), Function.nullhoistSnapshot,
    getD_append_right _ _ _ _ (by omega), hlength, Nat.add_sub_cancel_left, getD_cons_succ,
    getD_append_right _ _ _ _ (by omega), hspan, Nat.sub_self, getD_cons_zero]

/-- Behind the copies is the old function, without the check. -/
theorem Shape.out_after (hk : header ≤ k) : (fn.nullhoist header site skip).insn (k + site.total header) =
    if site.check ≤ k ∧ k ≤ site.diamond.okLabel then (fn.insn k).makeNop else fn.insn k := by
  obtain ⟨h₁, h₂, h₃, h₄⟩ := h.bounds
  have hafter : ((fn.mapRange site.check (site.diamond.okLabel + 1) Inst.makeNop).insertAt header
      (fn.nullhoistSnapshot header site skip)).insn (k + (fn.nullhoistSnapshot header site skip).length) = _ :=
    Function.insn_insertAt_after (by rw [Function.length_mapRange]; omega) hk
  rw [h.length_snapshot, Function.insn_mapRange (by omega)] at hafter
  unfold Function.nullhoist
  simpa only [Nat.lt_succ_iff] using hafter

/-- Every instruction is where it is placed. -/
theorem Shape.out_place : (fn.nullhoist header site skip).insn (site.place header k) = fn.insn k := by
  unfold place
  split
  · next hlt => exact h.out_before hlt
  · split
    · next hcheck =>
      rw [h.out_check (by unfold span; omega)]
      congr 1
      omega
    · next hle hout => rw [h.out_after (by omega), if_neg hout]

/-- An index of the new function: a place, the copied test, the guard, the skip label, or a `NOP` that is
left of the check. -/
theorem Shape.out_cases (t : ℕ) : (∃ k, site.place header k = t) ∨
    (∃ k, k < site.testLength header ∧ t = header + k) ∨ t = header + site.testLength header ∨
    t = site.checkCopy header + site.span ∨
    (∃ k, site.check ≤ k ∧ k ≤ site.diamond.okLabel ∧ t = k + site.total header) := by
  obtain ⟨h₁, h₂, h₃, h₄⟩ := h.bounds
  unfold place checkCopy total span
  rcases Nat.lt_or_ge t header with hlt | hge
  · exact Or.inl ⟨t, if_pos hlt⟩
  rcases Nat.lt_or_ge t (header + site.testLength header) with hlt | hge'
  · exact Or.inr (Or.inl ⟨t - header, by omega, by omega⟩)
  rcases Nat.lt_or_ge t (header + site.testLength header + 1) with hlt | hge''
  · exact Or.inr (Or.inr (Or.inl (by omega)))
  rcases Nat.lt_or_ge t (header + site.testLength header + 1 + (site.diamond.okLabel + 1 - site.check)) with hlt | hge₃
  · refine Or.inl ⟨t - (header + site.testLength header + 1) + site.check, ?_⟩
    rw [if_neg (by omega), if_pos (by omega)]
    omega
  rcases Nat.lt_or_ge t (header + site.testLength header + 1 + (site.diamond.okLabel + 1 - site.check) + 1) with hlt | hge₄
  · exact Or.inr (Or.inr (Or.inr (Or.inl (by omega))))
  let k := t - (site.testLength header + 1 + (site.diamond.okLabel + 1 - site.check) + 1)
  by_cases hk : site.check ≤ k ∧ k ≤ site.diamond.okLabel
  · exact Or.inr (Or.inr (Or.inr (Or.inr ⟨k, hk.1, hk.2, by omega⟩)))
  · refine Or.inl ⟨k, ?_⟩
    rw [if_neg (by omega), if_neg hk]
    omega

/-- The labels have moved with their instructions. -/
theorem Shape.labelAt_iff {name : String} (hname : name ≠ skip) {t : ℕ} :
    (fn.nullhoist header site skip).LabelAt t name ↔ ∃ k, site.place header k = t ∧ fn.LabelAt k name := by
  unfold Function.LabelAt
  constructor
  · rintro ⟨hop, htext⟩
    rcases h.out_cases t with ⟨k, rfl⟩ | ⟨k, hk, rfl⟩ | rfl | rfl | ⟨k, hk, hk', rfl⟩
    · rw [h.out_place] at hop htext
      exact ⟨k, rfl, hop, htext⟩
    · rw [h.out_test hk] at hop
      have hlt : header + 1 + k < site.entryBranch := by
        unfold testLength at hk
        omega
      exact absurd hop (cloneable_not_control (h.prefix_op _ (by omega) hlt)).2
    · rw [h.out_guard] at hop
      cases hop
    · rw [h.out_skip] at htext
      exact absurd (some.inj htext).symm hname
    · have := h.bounds
      rw [h.out_after (by omega), if_pos ⟨hk, hk'⟩] at hop
      cases hop
  · rintro ⟨k, rfl, hop, htext⟩
    rw [h.out_place]
    exact ⟨hop, htext⟩

/-- Jumps go to the moved places. -/
theorem Shape.findLabel_out (hlabels : fn.LabelsDistinct) {name : Option String} (hname : name ≠ some skip) :
    (fn.nullhoist header site skip).findLabel name = (fn.findLabel name).map (site.place header) := by
  cases name with
  | none => rfl
  | some name =>
    apply Function.findLabel_placed
    · intro k t hk ht
      exact hlabels k hk.lt t ht.lt hk.1 ht.1 (hk.2.trans ht.2.symm)
    · intro t
      apply h.labelAt_iff
      rintro rfl
      exact hname rfl

/-- The new label is behind the copied check. -/
theorem Shape.findLabel_skip (hfresh : ∀ k, (fn.insn k).text ≠ some skip) :
    (fn.nullhoist header site skip).findLabel (some skip) = some (site.checkCopy header + site.span) := by
  rw [Function.findLabel_eq_some_iff]
  constructor
  · unfold Function.LabelAt
    rw [h.out_skip]
    exact ⟨rfl, rfl⟩
  · rintro t ht ⟨hop, htext⟩
    rcases h.out_cases t with ⟨k, rfl⟩ | ⟨k, hk, rfl⟩ | rfl | rfl | ⟨k, hk, hk', rfl⟩
    · rw [h.out_place] at htext
      exact hfresh k htext
    · rw [h.out_test hk] at htext
      exact hfresh _ htext
    · rw [h.out_guard] at hop
      cases hop
    · exact lt_irrefl _ ht
    · have := h.bounds
      rw [h.out_after (by omega), if_pos ⟨hk, hk'⟩] at hop
      cases hop

/-- Hoisting takes no address. -/
theorem Shape.addressTaken_out (x : String) :
    (fn.nullhoist header site skip).addressTaken x = fn.addressTaken x := by
  rw [Bool.eq_iff_iff, Function.addressTaken_iff, Function.addressTaken_iff]
  have hlt : ∀ (g : Function) {t}, (g.insn t).op = .addressOf → t < g.instructions.length := by
    intro g t hop
    by_contra hle
    rw [Function.insn_of_length_le (by omega)] at hop
    cases hop
  constructor
  · rintro ⟨t, -, hop, hrest⟩
    rcases h.out_cases t with ⟨k, rfl⟩ | ⟨k, hk, rfl⟩ | rfl | rfl | ⟨k, hk, hk', rfl⟩
    · rw [h.out_place] at hop hrest
      exact ⟨k, hlt fn hop, hop, hrest⟩
    · rw [h.out_test hk] at hop hrest
      exact ⟨_, hlt fn hop, hop, hrest⟩
    · rw [h.out_guard] at hop
      cases hop
    · rw [h.out_skip] at hop
      cases hop
    · have := h.bounds
      rw [h.out_after (by omega), if_pos ⟨hk, hk'⟩] at hop
      cases hop
  · rintro ⟨k, -, hop, hrest⟩
    have hk : (fn.nullhoist header site skip).insn (site.place header k) = fn.insn k := h.out_place
    rw [← hk] at hop hrest
    exact ⟨_, hlt _ hop, hop, hrest⟩

/-- An instruction leaves as it did. -/
theorem Shape.leave_out (s : State W) (i : Inst) :
    s.leave H (fn.nullhoist header site skip) i = s.leave H fn i :=
  leave_congr h.addressTaken_out rfl s i

/-- The check in front of the loop. -/
theorem Shape.check_out (hlabels : fn.LabelsDistinct) (hfresh : ∀ k, (fn.insn k).text ≠ some skip) :
    NullCheckAt (fn.nullhoist header site skip) (site.checkCopy header)
      { site.diamond with
        jump := site.place header site.diamond.jump
        trapLabel := site.place header site.diamond.trapLabel
        call := site.place header site.diamond.call
        okLabel := site.place header site.diamond.okLabel } := by
  obtain ⟨h₁, h₂, h₃, h₄⟩ := h.bounds
  have hjump := h.check.jump_lt
  have htrap := h.check.trap_lt
  have hcall := h.check.call_lt
  have hok := h.check.ok_gt
  -- the five instructions of the check are moved together, in their order
  have hplace : ∀ k, site.check ≤ k → k ≤ site.diamond.okLabel →
      site.place header k = site.checkCopy header + (k - site.check) := by
    intro k hk hk'
    unfold place
    rw [if_neg (by omega), if_pos ⟨hk, hk'⟩]
  have hmono {j k : ℕ} (hj : site.check ≤ j) (hjk : j < k) (hk : k ≤ site.diamond.okLabel) :
      site.place header j < site.place header k := by
    rw [hplace _ hj (by omega), hplace _ (by omega) hk]
    omega
  have hcheck : site.checkCopy header = site.place header site.check := by
    rw [hplace _ le_rfl (by omega), Nat.sub_self, Nat.add_zero]
  have hbranch : (fn.nullhoist header site skip).insn (site.checkCopy header) = fn.insn site.check := by
    rw [hcheck, h.out_place]
  exact {
    branch_op := by rw [hbranch]; exact h.check.branch_op
    jump_lt := by
      rw [hcheck]
      exact hmono le_rfl hjump (by omega)
    jump_op := by simpa only [h.out_place] using h.check.jump_op
    trap_lt := hmono hjump.le htrap (by omega)
    trap_op := by simpa only [h.out_place] using h.check.trap_op
    call_lt := hmono (by omega) hcall hok.le
    call_op := by simpa only [h.out_place] using h.check.call_op
    call_text := by simpa only [h.out_place] using h.check.call_text
    ok_gt := hmono (by omega) hok le_rfl
    ok_op := by simpa only [h.out_place] using h.check.ok_op
    ok_lt := by
      simp only [hplace _ (by omega : site.check ≤ site.diamond.okLabel) le_rfl, h.out_length]
      unfold checkCopy total span
      omega
    nops := by
      intro k hk (hk' : k < site.place header site.diamond.okLabel) (hne : k ≠ site.place header site.diamond.jump)
        (hne' : k ≠ site.place header site.diamond.trapLabel) (hne'' : k ≠ site.place header site.diamond.call)
      rw [hplace _ (by omega) (by omega)] at hk' hne hne' hne''
      have hspan : k - site.checkCopy header < site.span := by
        unfold span
        omega
      have heq : (fn.nullhoist header site skip).insn (site.checkCopy header + (k - site.checkCopy header)) =
          fn.insn (site.check + (k - site.checkCopy header)) := h.out_check hspan
      rw [show site.checkCopy header + (k - site.checkCopy header) = k by omega] at heq
      rw [heq]
      exact h.check.nops _ (by omega) (by omega) (by omega) (by omega) (by omega)
    trap_found := by
      rw [hbranch, h.findLabel_out hlabels (hfresh _), h.check.trap_found]
      rfl
    ok_found := by
      simp only [h.out_place]
      rw [h.findLabel_out hlabels (hfresh _), h.check.ok_found]
      rfl }

end

end NullhoistSite

end Mettle.Ir

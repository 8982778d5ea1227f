import Mettle.Ir.NullCheckLicmShape

/-!
# What hoisting null checks preserves

`nullCheckLicmPass_outcomes`: a run that meets `NullhoistSite.Met` at every check that is hoisted ends
as before: it traps when it did, with the host in the same state, and returns the same value otherwise.
The pass checks little of this: it looks for writes up to the first jump back only, takes a call or a
store to leave a global alone, and runs the copied entry test and the check ahead of everything the
first iteration does before the check.
-/

namespace Mettle.Ir

open Lib Option

variable {W : Type}

namespace NullhoistSite

section

variable (H : Host W) (fn : Function) (header : ℕ) (site : NullhoistSite)

/-- The entry test, from the header to its branch. -/
def tested (s : State W) : Option (State W) := s.execAll H fn (fn.slice (header + 1) site.entryBranch)

/-- The checked symbol is not null. -/
def Nonnull (s : State W) : Prop := s.Nonnull H (fn.insn site.check).lhs

/-- The entry test lets the loop be entered. -/
def Enters (s s₁ : State W) : Prop := tested H fn header site s = some s₁ ∧ s₁.Nonnull H (fn.insn site.entryBranch).lhs

/-- The loop is entered with a null symbol, so that the hoisted check traps. -/
def EntersNull (s : State W) : Prop := ∃ s₁, Enters H fn header site s s₁ ∧ ¬ Nonnull H fn site s₁

/-- What reaching the loop from above must meet: where the copied check passes or is skipped, the entry
test can be made a second time and changes nothing; where it traps, the first iteration reaches its own
check without an effect on the host and traps there. -/
structure EntryMet (s : State W) : Prop where
  repeats : ∀ s₁, tested H fn header site s = some s₁ →
    (s₁.Nonnull H (fn.insn site.entryBranch).lhs → Nonnull H fn site s₁) → tested H fn header site s₁ = some s₁
  traps : ∀ s₁, Enters H fn header site s s₁ → ¬ Nonnull H fn site s₁ →
    ∃ s₂, s₁.execAll H fn (fn.slice (site.entryBranch + 1) site.check) = some s₂ ∧ s₂.world = s₁.world ∧
      ¬ Nonnull H fn site s₂

/-- The next step reaches the header from the instruction above it. -/
def Falls (c : Config W) (s : State W) : Prop :=
  ∃ p t, c = .at p t ∧ p + 1 = header ∧ t.leave H fn (fn.insn p) = some (.next s)

/-- What each step must meet: the loop is reached from above as it should be, the check of the loop passes,
and the inside of the check is reached through its branch only. -/
structure StepMet (c : Config W) : Prop where
  entry : ∀ s, Falls H fn header c s → EntryMet H fn header site s
  check : ∀ s, c = .at site.check s → Nonnull H fn site s
  inside : ∀ p s q t, c = .at p s → advance H fn c = some (.at q t) →
    (p < site.check ∨ site.diamond.okLabel < p) → ¬ (site.check < q ∧ q ≤ site.diamond.okLabel)

/-- What a run of the function must meet, up to an entry of the loop on which the check traps. -/
structure Met (s : State W) : Prop where
  start : header = 0 → EntryMet H fn header site s
  run : ¬ (header = 0 ∧ EntersNull H fn header site s) →
    Until (advance H fn) (fun c => ∃ t, Falls H fn header c t ∧ EntersNull H fn header site t)
      (StepMet H fn header site) (.at 0 s)

end

/-! ## The scan -/

section

variable {H : Host W} {fn : Function} {header backedge : ℕ} {site : NullhoistSite} {x : String}

/-- A step from the loop, the first jump back included. -/
def InLoop (header backedge : ℕ) : Config W → Prop
  | .at pc _ => header ≤ pc ∧ pc ≤ backedge
  | .returned _ _ => False

/-- A step keeps a variable that its instruction does not write. -/
theorem advance_env {pc q : ℕ} {s t : State W} (h : advance H fn (.at pc s) = some (.at q t))
    (hx : (fn.insn pc).writesName x = false) : t.env x = s.env x := by
  change step H fn (.at pc s) = _ at h
  obtain ⟨-, ⟨rfl, -, -⟩ | ⟨rfl, -, -⟩ | ⟨hexec, -, -⟩⟩ := step_cases h
  · rfl
  · rfl
  · exact State.exec_env hexec hx

/-- In a loop that is left before a second jump back, and writes the checked symbol only as the scan sees it, a local
of the frame that is not null when the loop is reached passes the check each time: what `StepMet.check` asks. -/
theorem check_of_site (hsite : fn.nullhoistSite header = some site)
    (hback : fn.firstJumpTo header (fn.insn header).text = some backedge)
    (hshown : ∀ k, header < k → k < backedge → (fn.insn k).writesName site.diamond.symbolName = true →
      (fn.insn k).writesSymbol = true ∧ (fn.insn k).dest.name = some site.diamond.symbolName ∧
        ¬ (site.check ≤ k ∧ k ≤ site.diamond.okLabel))
    {s s' : State W} {var : Var} (hvar : s.env site.diamond.symbolName = some var) (hvalue : var.value.truth = true)
    (hpath : Path (advance H fn) (InLoop header backedge) (.at header s) (.at site.check s')) :
    Nonnull H fn site s' := by
  obtain ⟨hsafe, hkind, hname⟩ := scanned_of_site hsite hback
  have hunwritten : ∀ k, header ≤ k → k ≤ backedge → (fn.insn k).writesName site.diamond.symbolName = false := by
    intro k hk hk'
    -- the header is a label and the jump back a jump
    have hop : (fn.insn header).op = .label := by
      simp only [Function.nullhoistSite, bind_eq_bind, bind_eq_some_iff, guard_eq_some', exists_const] at hsite
      exact hsite.1.1
    obtain ⟨-, -, hjump, -⟩ := Function.firstFrom_spec hback
    rcases eq_or_lt_of_le hk with rfl | hlt
    · simp [Inst.writesName, Inst.written, Inst.results, hop]
    rcases eq_or_lt_of_le hk' with rfl | hlt'
    · simp [Inst.writesName, Inst.written, Inst.results, (of_decide_eq_true hjump).1]
    · by_contra hwrites
      rw [Bool.not_eq_false] at hwrites
      obtain ⟨hsymbol, hdest, hout⟩ := hshown k hlt hlt' hwrites
      have hscan := List.all_eq_true.mp hsafe k (List.mem_range'_1.mpr ⟨hlt, by omega⟩)
      rw [decide_eq_true_eq] at hscan
      exact (hscan.resolve_left hout).1 ⟨hsymbol, hdest⟩
  have hkept : ∀ c, Path (advance H fn) (InLoop header backedge) (.at header s) c → ∀ pc t, c = .at pc t →
      t.env site.diamond.symbolName = some var := by
    intro c hpath
    induction hpath with
    | refl =>
      rintro pc t ⟨⟩
      exact hvar
    | @tail c d _ hstep ih =>
      rintro q t rfl
      obtain ⟨hin, hstep⟩ := hstep
      cases c with
      | returned v u => cases hin
      | «at» pc u => rw [advance_env hstep (hunwritten pc hin.1 hin.2), ih pc u rfl]
  refine ⟨var.value, ?_, hvalue⟩
  rw [State.fetch, hkind, hname]
  simp only [hkept _ hpath _ _ rfl]

end

/-! ## The simulation -/

section

variable {H : Host W} {fn : Function} {header : ℕ} {site : NullhoistSite} {skip : String}

/-- Where an instruction is after the hoist, the check of the loop being a `NOP` now. -/
def move (site : NullhoistSite) (header k : ℕ) : ℕ := if k < header then k else k + site.total header

variable (H fn header site) in
/-- The run meets the conditions from a configuration on. -/
abbrev Safe (c : Config W) : Prop :=
  Until (advance H fn) (fun c => ∃ t, Falls H fn header c t ∧ EntersNull H fn header site t)
    (StepMet H fn header site) c

variable (H fn header site) in
/-- Configurations of the two functions that correspond: outside the check, at the header reached from
above, or returned. -/
inductive Related : Config W → Config W → Prop
  | moved {p : ℕ} {s : State W} (hp : p ≤ site.check ∨ site.diamond.okLabel < p)
      (hsafe : Safe H fn header site (.at p s)) : Related (.at p s) (.at (site.move header p) s)
  | entered {s : State W} (hentry : EntryMet H fn header site s)
      (hsafe : ¬ EntersNull H fn header site s → Safe H fn header site (.at header s)) :
      Related (.at header s) (.at header s)
  | returned {v : Value} {s : State W} : Related (.returned v s) (.returned v s)

variable (h : site.Shape fn header)

include h

theorem Shape.copied_self : Copied fn fn (header + 1) (header + 1) (site.testLength header) := by
  obtain ⟨h₁, h₂, h₃, h₄⟩ := h.bounds
  exact Copied.refl (by omega) (by omega) fun k hk hk' =>
    (cloneable_not_control (h.prefix_op k (by omega) hk')).1

/-- The entry test of the loop after the hoist. -/
theorem Shape.copied_loop :
    Copied fn (fn.nullhoist header site skip) (header + 1) (header + site.total header + 1) (site.testLength header) where
  same k hk := by
    obtain ⟨h₁, h₂, h₃, h₄⟩ := h.bounds
    unfold testLength at hk
    rw [show header + site.total header + 1 + k = header + 1 + k + site.total header by omega,
      h.out_after (by omega), if_neg (by omega)]
  source_le := h.copied_self.source_le
  target_le := by
    have := h.copied_self.source_le
    rw [h.out_length]
    omega
  address := h.addressTaken_out
  straight := h.copied_self.straight

/-- The entry test in front of the loop. -/
theorem Shape.copied_front :
    Copied fn (fn.nullhoist header site skip) (header + 1) header (site.testLength header) where
  same _ hk := h.out_test hk
  source_le := h.copied_self.source_le
  target_le := by
    have := h.copied_self.source_le
    rw [h.out_length]
    omega
  address := h.addressTaken_out
  straight := h.copied_self.straight

/-- The instructions between the header and its branch. -/
theorem Shape.slice_test : fn.slice (header + 1) (header + 1 + site.testLength header) =
    fn.slice (header + 1) site.entryBranch := by
  obtain ⟨h₁, h₂, h₃, h₄⟩ := h.bounds
  rw [testLength, show header + 1 + (site.entryBranch - (header + 1)) = site.entryBranch by omega]

variable {s s₁ : State W} {p : ℕ}

/-- From the header to the entry branch. -/
theorem Shape.path_test (hs : tested H fn header site s = some s₁) :
    PathOn (advance H fn) (Config.From header) (.at header s) (.at site.entryBranch s₁) := by
  obtain ⟨h₁, h₂, h₃, h₄⟩ := h.bounds
  apply pathOn_at le_rfl (advance_label (by omega) h.header_op)
  have hpath := @Copied.path _ H _ _ _ _ _ h.copied_self s s₁ (by rw [h.slice_test]; exact hs)
  rw [show header + 1 + site.testLength header = site.entryBranch by unfold testLength; omega] at hpath
  exact hpath.mono fun c hc => hc.mono (Nat.le_succ header)

/-- Where the test gets stuck, so does the function, in the same world. -/
theorem Shape.stuck_test (hs : tested H fn header site s = none) :
    Outcome H fn (.at header s) (none, s.stopWorld H fn (fn.slice (header + 1) site.entryBranch)) := by
  obtain ⟨h₁, h₂, h₃, h₄⟩ := h.bounds
  apply (ends_step (advance_label (by omega) h.header_op)).mpr
  rw [← h.slice_test]
  apply h.copied_self.outcome
  rw [h.slice_test]
  exact hs

/-- From the header to the entry branch after the hoist. -/
theorem Shape.path_loop (hs : tested H fn header site s = some s₁) :
    LeadsOn (advance H (fn.nullhoist header site skip)) (.at (header + site.total header) s)
      (.at (site.entryBranch + site.total header) s₁) := by
  obtain ⟨h₁, h₂, h₃, h₄⟩ := h.bounds
  have hcopy : Copied fn (fn.nullhoist header site skip) _ _ _ := h.copied_loop
  have hlabel : ((fn.nullhoist header site skip).insn (header + site.total header)).op = .label := by
    rw [h.out_after le_rfl, if_neg (by omega)]
    exact h.header_op
  have hpath := @Copied.path _ H _ _ _ _ _ hcopy s s₁ (by rw [h.slice_test]; exact hs)
  rw [show header + site.total header + 1 + site.testLength header =
    site.entryBranch + site.total header by unfold testLength; omega] at hpath
  exact (leads_step (advance_label (by rw [h.out_length]; omega) hlabel)).trans_left hpath.leads

omit h in
/-- A path at or behind the header does not reach it from above. -/
theorem Safe.path {c d : Config W} (hsafe : Safe H fn header site c)
    (hpath : Path (advance H fn) (Config.From header) c d) : Safe H fn header site d := by
  apply Until.path hsafe
  apply hpath.mono
  rintro c hc ⟨t, ⟨p, u, rfl, hp, -⟩, -⟩
  have : header ≤ p := hc
  omega

/-- Behind the skip label the loop is entered, and its test made again. -/
theorem Shape.joins_skip (hs : tested H fn header site s = some s₁) (hrepeat : tested H fn header site s₁ = some s₁)
    (hsafe : Safe H fn header site (.at header s))
    (hfront : Leads (advance H (fn.nullhoist header site skip)) (.at header s) (.at (site.checkCopy header + site.span) s₁)) :
    Joins (advance H fn) (advance H (fn.nullhoist header site skip)) Config.outcome Config.outcome
      (Related H fn header site) (.at header s) (.at header s) := by
  obtain ⟨h₁, h₂, h₃, h₄⟩ := h.bounds
  have hskip : advance H (fn.nullhoist header site skip) (.at (site.checkCopy header + site.span) s₁) =
      some (.at (header + site.total header) s₁) := by
    rw [advance_label (by rw [h.out_length]; unfold checkCopy total; omega) (by rw [h.out_skip])]
    unfold checkCopy total
    congr 2
    omega
  have hmove : site.entryBranch + site.total header = site.move header site.entryBranch := by
    rw [move, if_neg (by omega)]
  apply Joins.on (h.path_test hs).leads
  · apply Relation.TransGen.trans_right hfront
    exact (leads_step hskip).trans (h.path_loop hrepeat)
  · rw [hmove]
    exact Related.moved (Or.inl (by omega)) (hsafe.path (h.path_test hs).to_reflTransGen)

/-- From the header reached from above. -/
theorem Shape.joins_entered (hhost : H.TrapStops) (hlabels : fn.LabelsDistinct)
    (hfresh : ∀ k, (fn.insn k).text ≠ some skip) (hentry : EntryMet H fn header site s)
    (hsafe : ¬ EntersNull H fn header site s → Safe H fn header site (.at header s)) :
    Joins (advance H fn) (advance H (fn.nullhoist header site skip)) Config.outcome Config.outcome
      (Related H fn header site) (.at header s) (.at header s) := by
  obtain ⟨h₁, h₂, h₃, h₄⟩ := h.bounds
  have hcopy : Copied fn (fn.nullhoist header site skip) _ _ _ := h.copied_front
  cases hs : tested H fn header site s with
  | none =>
    apply Joins.ends (h.stuck_test hs)
    rw [← h.slice_test]
    apply hcopy.outcome
    rw [h.slice_test]
    exact hs
  | some s₁ =>
    have htest := (h.path_test hs).to_reflTransGen
    have hfront := @Copied.path _ H _ _ _ _ _ hcopy s s₁ (by rw [h.slice_test]; exact hs)
    have hguard : header + site.testLength header < (fn.nullhoist header site skip).instructions.length := by
      rw [h.out_length]
      unfold total
      omega
    have hguardOp : ((fn.nullhoist header site skip).insn (header + site.testLength header)).op = .branchZero := by
      rw [h.out_guard]
    have hguardLhs : ((fn.nullhoist header site skip).insn (header + site.testLength header)).lhs =
        (fn.insn site.entryBranch).lhs := by
      rw [h.out_guard]
    have hcheckLhs : ((fn.nullhoist header site skip).insn (site.checkCopy header)).lhs = (fn.insn site.check).lhs := by
      have hcopied : (fn.nullhoist header site skip).insn (site.checkCopy header + 0) = fn.insn (site.check + 0) :=
        h.out_check (by unfold span; omega)
      exact congrArg Inst.lhs hcopied
    have hunique : ∀ s₂, tested H fn header site s = some s₂ → s₂ = s₁ := fun s₂ hs₂ =>
      some.inj (hs₂.symm.trans hs)
    have hcheckOut := h.check_out hlabels hfresh
    cases hv : s₁.fetch H (fn.insn site.entryBranch).lhs with
    | none =>
      -- Neither test gets its operand.
      apply Joins.ends
      · exact (ends_path htest).mpr (Ends.stop (advance_branchZero_stuck (by omega) h.entry_op hv))
      · exact (ends_path hfront).mpr (Ends.stop (advance_branchZero_stuck hguard hguardOp (hguardLhs ▸ hv)))
    | some v =>
      cases hin : v.truth with
      | false =>
        -- The loop is not entered, and the copied check is skipped.
        have hout : ¬ s₁.Nonnull H (fn.insn site.entryBranch).lhs := by
          rintro ⟨v', hv', htruth⟩
          rw [hv] at hv'
          cases hv'
          rw [hin] at htruth
          cases htruth
        apply h.joins_skip hs (hentry.repeats s₁ hs fun henters => absurd henters hout)
        · apply hsafe
          rintro ⟨s₂, ⟨hs₂, henters⟩, -⟩
          rw [hunique s₂ hs₂] at henters
          exact hout henters
        · have hjump := advance_branchZero_goto hguard hguardOp (hguardLhs ▸ hv) hin
          rw [h.out_guard, h.findLabel_skip hfresh, map_some] at hjump
          exact hfront.leads.trans (Path.one trivial hjump)
      | true =>
        have henters : s₁.Nonnull H (fn.insn site.entryBranch).lhs := ⟨v, hv, hin⟩
        have hguardStep := advance_branchZero_next hguard hguardOp (hguardLhs ▸ henters)
        have hcheck : Leads (advance H (fn.nullhoist header site skip)) (.at header s) (.at (site.checkCopy header) s₁) :=
          hfront.leads.trans (Path.one trivial hguardStep)
        by_cases hnull : Nonnull H fn site s₁
        · -- The copied check passes.
          apply h.joins_skip hs (hentry.repeats s₁ hs fun _ => hnull)
          · apply hsafe
            rintro ⟨s₂, ⟨hs₂, -⟩, hnull₂⟩
            rw [hunique s₂ hs₂] at hnull₂
            exact hnull₂ hnull
          · have hplace : site.place header site.diamond.okLabel + 1 = site.checkCopy header + site.span := by
              unfold place span
              rw [if_neg (by omega), if_pos ⟨by omega, le_rfl⟩]
              omega
            rw [← hplace]
            exact hcheck.trans (hcheckOut.passes (hcheckLhs ▸ hnull)).leads.to_reflTransGen
        · -- The copied check traps, and so does the first one of the loop.
          obtain ⟨s₂, hs₂, hworld, hnull₂⟩ := hentry.traps s₁ ⟨hs, henters⟩ hnull
          apply Joins.ends
          · apply (ends_path htest).mpr
            apply (ends_step (advance_branchZero_next (by omega) h.entry_op henters)).mpr
            have hstraight : Path (advance H fn) _ (.at (site.entryBranch + 1) s₁) (.at site.check s₂) :=
              path_straight (by omega) (by omega) hs₂
            exact (ends_path hstraight).mpr (h.check.traps hhost hnull₂)
          · rw [hworld]
            exact (ends_path hcheck).mpr (hcheckOut.traps hhost (hcheckLhs ▸ hnull))

/-- An instruction outside the check stands at its moved place. -/
theorem Shape.out_move (hp : p < site.check ∨ site.diamond.okLabel < p) :
    (fn.nullhoist header site skip).insn (site.move header p) = fn.insn p := by
  unfold move
  split
  · next hlt => exact h.out_before hlt
  · next hge => rw [h.out_after (by omega), if_neg (by omega)]

/-- Inside the function stays inside. -/
theorem Shape.move_lt : site.move header p < (fn.nullhoist header site skip).instructions.length ↔
    p < fn.instructions.length := by
  obtain ⟨h₁, h₂, h₃, h₄⟩ := h.bounds
  rw [h.out_length]
  unfold move
  split <;> omega

/-- From the check of the loop, which passes. -/
theorem Shape.joins_check (hsafe : Safe H fn header site (.at site.check s)) :
    Joins (advance H fn) (advance H (fn.nullhoist header site skip)) Config.outcome Config.outcome
      (Related H fn header site) (.at site.check s) (.at (site.move header site.check) s) := by
  obtain ⟨h₁, h₂, h₃, h₄⟩ := h.bounds
  have hpass := h.check.passes (H := H) (hsafe.now.check s rfl)
  have hmove : ∀ k, header ≤ k → site.move header k = k + site.total header := fun k hk => by
    rw [move, if_neg (by omega)]
  have hnop : ∀ k, site.check ≤ k → k ≤ site.diamond.okLabel →
      ((fn.nullhoist header site skip).insn (k + site.total header)).op = .nop := by
    intro k hk hk'
    rw [h.out_after (by omega), if_pos ⟨hk, hk'⟩]
    rfl
  have hfirst : advance H (fn.nullhoist header site skip) (.at (site.check + site.total header) s) =
      some (.at (site.check + site.total header + 1) s) := by
    exact step_nop (by rw [h.out_length]; omega) (hnop _ le_rfl (by omega))
  have hnops : Path (advance H (fn.nullhoist header site skip)) (Config.From (site.check + site.total header + 1))
      (.at (site.check + site.total header + 1) s) (.at (site.diamond.okLabel + 1 + site.total header) s) := by
    apply path_nops s (by omega) (by rw [h.out_length]; omega)
    intro k hk hk'
    have := hnop (k - site.total header) (by omega) (by omega)
    rwa [show k - site.total header + site.total header = k by omega] at this
  rw [hmove _ (by omega)]
  apply Joins.on hpass.leads
  · exact (leads_step hfirst).trans_left hnops.leads
  · rw [← hmove _ (by omega)]
    refine Related.moved (Or.inr (Nat.lt_succ_self _)) ?_
    exact hsafe.path (Path.mono hpass.to_reflTransGen fun c hc => hc.mono (by omega))

/-- From an instruction that stays. -/
theorem Shape.joins_stays (hlabels : fn.LabelsDistinct) (hfresh : ∀ k, (fn.insn k).text ≠ some skip)
    (hp : p < site.check ∨ site.diamond.okLabel < p) (hsafe : Safe H fn header site (.at p s)) :
    Joins (advance H fn) (advance H (fn.nullhoist header site skip)) Config.outcome Config.outcome
      (Related H fn header site) (.at p s) (.at (site.move header p) s) := by
  rcases Nat.lt_or_ge p fn.instructions.length with hlen | hlen
  · have hstep := advance_land (H := H) (s := s) hlen
    have hstepOut : advance H (fn.nullhoist header site skip) (.at (site.move header p) s) = _ :=
      advance_land (h.move_lt.mpr hlen)
    rw [h.leave_out, h.out_move hp] at hstepOut
    -- leaving the function, falling through or jumping: the place after the step is moved alike
    cases hleave : s.leave H fn (fn.insn p) with
    | none =>
      rw [hleave] at hstep hstepOut
      exact Joins.ends (Ends.stop hstep) (Ends.stop hstepOut)
    | some exit =>
      rw [hleave, bind_some] at hstep hstepOut
      cases exit with
      | next t =>
        have hunique : ∀ u, Falls H fn header (.at p s) u → u = t ∧ p + 1 = header := by
          rintro u ⟨q, v, hq, hheader, hu⟩
          cases hq
          rw [hleave] at hu
          cases hu
          exact ⟨rfl, hheader⟩
        apply Joins.on (leads_step hstep) (leads_step hstepOut)
        by_cases hheader : p + 1 = header
        · have hfalls : Falls H fn header (.at p s) t := ⟨p, s, rfl, hheader, hleave⟩
          have hmove : site.move header p + 1 = header := by
            rw [move, if_pos (by omega), hheader]
          rw [hmove, hheader]
          refine Related.entered (hsafe.now.entry t hfalls) fun hnull => ?_
          have hland : Exit.land fn p (.next t) = some (.at header t) := by rw [Exit.land, hheader]
          refine Until.path hsafe (Path.one ?_ (hstep.trans hland))
          rintro ⟨u, hu, hnull'⟩
          rw [(hunique u hu).1] at hnull'
          exact hnull hnull'
        · have hmove : site.move header p + 1 = site.move header (p + 1) := by
            unfold move
            split <;> split <;> omega
          rw [hmove]
          refine Related.moved (by omega) (Until.path hsafe (Path.one ?_ hstep))
          rintro ⟨u, hu, -⟩
          exact hheader (hunique u hu).2
      | goto label t =>
        obtain ⟨hlabel, ht⟩ := State.leave_goto hleave
        rw [ht, hlabel] at hstep hstepOut
        change _ = (fn.findLabel (fn.insn p).text).map fun q => Config.at q s at hstep
        change _ = ((fn.nullhoist header site skip).findLabel (fn.insn p).text).map fun q => Config.at q s at hstepOut
        rw [h.findLabel_out hlabels (hfresh p), map_map] at hstepOut
        cases hfind : fn.findLabel (fn.insn p).text with
        | none =>
          rw [hfind] at hstep hstepOut
          exact Joins.ends (Ends.stop hstep) (Ends.stop hstepOut)
        | some q =>
          rw [hfind] at hstep hstepOut
          have hout := hsafe.now.inside p s q s rfl hstep hp
          have hne : q ≠ site.check := by
            rintro rfl
            have hop := (findLabel_op hfind).2.1
            rw [h.check.branch_op] at hop
            cases hop
          have hplace : site.place header q = site.move header q := by
            unfold place move
            split
            · rfl
            · rw [if_neg (by omega)]
          apply Joins.on (leads_step hstep) (leads_step hstepOut)
          show Related H fn header site _ (.at (site.place header q) s)
          rw [hplace]
          refine Related.moved (by omega) (Until.path hsafe (Path.one ?_ hstep))
          rintro ⟨u, ⟨q', v, hq, -, hu⟩, -⟩
          cases hq
          rw [hleave] at hu
          cases hu
      | ret v t =>
        exact Joins.on (leads_step hstep) (leads_step hstepOut) Related.returned
  · have hlenOut : (fn.nullhoist header site skip).instructions.length ≤ site.move header p := by
      by_contra hlt
      have : p < fn.instructions.length := h.move_lt.mp (Nat.not_le.mp hlt)
      omega
    exact Joins.on (leads_step (advance_end hlen)) (leads_step (advance_end hlenOut)) Related.returned

/-- A function and what one hoist makes of it come to the same ends. -/
theorem Shape.outcomes (hhost : H.TrapStops) (hlabels : fn.LabelsDistinct)
    (hfresh : ∀ k, (fn.insn k).text ≠ some skip) (hmet : Met H fn header site s) (o : Option Value × W) :
    Outcome H fn (.at 0 s) o ↔ Outcome H (fn.nullhoist header site skip) (.at 0 s) o := by
  have hjoins : ∀ c c', Related H fn header site c c' → Joins (advance H fn)
      (advance H (fn.nullhoist header site skip)) Config.outcome Config.outcome (Related H fn header site) c c' := by
    intro c c' hrel
    cases hrel with
    | @moved p s hp hsafe =>
      by_cases hcheck : p = site.check
      · subst hcheck
        exact h.joins_check hsafe
      · exact h.joins_stays hlabels hfresh (by omega) hsafe
    | entered hentry hsafe => exact h.joins_entered hhost hlabels hfresh hentry hsafe
    | returned => exact Joins.ends (Ends.stop rfl) (Ends.stop rfl)
  apply ends_iff_of_joins hjoins
  by_cases hheader : header = 0
  · subst hheader
    exact Related.entered (hmet.start rfl) fun hnull => hmet.run fun hstart => hnull hstart.2
  · have hmove : (0 : ℕ) = site.move header 0 := by
      rw [move, if_pos (by omega)]
    have hrel : Related H fn header site (.at 0 s) (.at (site.move header 0) s) :=
      Related.moved (Or.inl (Nat.zero_le _)) (hmet.run fun hstart => hheader hstart.1)
    rwa [← hmove] at hrel

end

end NullhoistSite

/-! ## The pass -/

namespace NullCheckLicm

/-- The state after some rounds of the pass. -/
def after (fn : Function) (counter n : ℕ) : NullCheckLicm := round^[n] ⟨fn, 0, counter⟩

/-- One round more. -/
theorem after_succ (fn : Function) (counter n : ℕ) : after fn counter (n + 1) = (after fn counter n).round :=
  Function.iterate_succ_apply' round n _

variable {st : NullCheckLicm} {s : State W}

/-- Behind the last instruction nothing happens. -/
theorem round_of_length_le (h : st.function.instructions.length ≤ st.index) : st.round = st := by
  rw [round, if_pos h]

/-- Without a site the scan goes on. -/
theorem round_of_none (hlt : st.index < st.function.instructions.length) (h : st.site = none) :
    st.round = { st with index := st.index + 1 } := by
  rw [round, if_neg (by omega), h]

/-- A site is rewritten, and the scan starts again. -/
theorem round_of_some {site : NullhoistSite} (hlt : st.index < st.function.instructions.length)
    (h : st.site = some site) :
    st.round = {
      function := st.function.nullhoist st.index site st.skipLabel
      index := st.index + (st.function.nullhoistSnapshot st.index site st.skipLabel).length
      counter := st.counter + 1 } := by
  rw [round, if_neg (by omega), h]

/-- Labels are distinct, and the names that are still to be made are not in use. -/
structure WellNamed (st : NullCheckLicm) : Prop where
  labels : st.function.LabelsDistinct
  fresh : ∀ n ≥ st.counter, ∀ k, (st.function.insn k).text ≠ some ("ir_nullhoist_skip_" ++ toString n)

/-- The new labels of different rounds differ. -/
theorem skipLabel_inj {m n : ℕ} (h : "ir_nullhoist_skip_" ++ toString m = "ir_nullhoist_skip_" ++ toString n) :
    m = n := by
  have hlist := congrArg String.toList h
  rw [String.toList_append, String.toList_append, List.append_cancel_left_eq, String.toList_inj] at hlist
  exact Nat.repr_injective hlist

/-- The next new label is not in use. -/
theorem WellNamed.fresh_skip (h : st.WellNamed) (k : ℕ) : (st.function.insn k).text ≠ some st.skipLabel :=
  h.fresh st.counter le_rfl k

/-- After a rewriting the names are still in order. -/
theorem WellNamed.hoist (h : st.WellNamed) {site : NullhoistSite} (hshape : site.Shape st.function st.index)
    (index : ℕ) :
    WellNamed ⟨st.function.nullhoist st.index site st.skipLabel, index, st.counter + 1⟩ where
  labels := by
    -- A label is one of the function, in its place, or the new one.
    have hcases : ∀ t, ((st.function.nullhoist st.index site st.skipLabel).insn t).op = .label →
        (∃ k, site.place st.index k = t ∧ (st.function.insn k).op = .label ∧ k < st.function.instructions.length ∧
          ((st.function.nullhoist st.index site st.skipLabel).insn t).text = (st.function.insn k).text) ∨
        t = site.checkCopy st.index + site.span := by
      intro t hop
      rcases hshape.out_cases t with ⟨k, rfl⟩ | ⟨k, hk, rfl⟩ | rfl | rfl | ⟨k, hk, hk', rfl⟩
      · rw [hshape.out_place] at hop ⊢
        refine Or.inl ⟨k, rfl, hop, ?_, rfl⟩
        by_contra hle
        rw [Function.insn_of_length_le (by omega)] at hop
        cases hop
      · rw [hshape.out_test hk] at hop
        have hlt : st.index + 1 + k < site.entryBranch := by
          unfold NullhoistSite.testLength at hk
          omega
        exact absurd hop (NullhoistSite.cloneable_not_control (hshape.prefix_op _ (by omega) hlt)).2
      · rw [hshape.out_guard] at hop
        cases hop
      · exact Or.inr rfl
      · have := hshape.bounds
        rw [hshape.out_after (by omega), if_pos ⟨hk, hk'⟩] at hop
        cases hop
    have hskip : ((st.function.nullhoist st.index site st.skipLabel).insn (site.checkCopy st.index + site.span)).text =
        some st.skipLabel := by
      rw [hshape.out_skip]
    intro i _ j _ hi hj htext
    rcases hcases i hi with ⟨k, rfl, hk, hklt, hktext⟩ | rfl
    · rcases hcases j hj with ⟨m, rfl, hm, hmlt, hmtext⟩ | rfl
      · rw [hktext, hmtext] at htext
        rw [h.labels k hklt m hmlt hk hm htext]
      · rw [hktext, hskip] at htext
        exact absurd htext (h.fresh_skip k)
    · rcases hcases j hj with ⟨m, rfl, hm, hmlt, hmtext⟩ | rfl
      · rw [hmtext, hskip] at htext
        exact absurd htext.symm (h.fresh_skip m)
      · rfl
  fresh := by
    intro n (hn : st.counter + 1 ≤ n) t
    have hne : some st.skipLabel ≠ some ("ir_nullhoist_skip_" ++ toString n) := by
      intro heq
      have := skipLabel_inj (some.inj heq)
      omega
    rcases hshape.out_cases t with ⟨k, rfl⟩ | ⟨k, hk, rfl⟩ | rfl | rfl | ⟨k, hk, hk', rfl⟩
    · rw [hshape.out_place]
      exact h.fresh n (by omega) k
    · rw [hshape.out_test hk]
      exact h.fresh n (by omega) _
    · rw [hshape.out_guard]
      exact hne
    · rw [hshape.out_skip]
      exact hne
    · have := hshape.bounds
      rw [hshape.out_after (by omega), if_pos ⟨hk, hk'⟩]
      exact (some_ne_none _).symm

theorem WellNamed.round (h : st.WellNamed) : st.round.WellNamed := by
  rcases Nat.lt_or_ge st.index st.function.instructions.length with hlt | hge
  · cases hsite : st.site with
    | none =>
      rw [round_of_none hlt hsite]
      exact ⟨h.labels, h.fresh⟩
    | some site =>
      rw [round_of_some hlt hsite]
      exact h.hoist (NullhoistSite.shape_of_site hsite h.labels) _
  · rw [round_of_length_le hge]
    exact h

/-- What a check that is about to be hoisted must meet. -/
def Met (H : Host W) (st : NullCheckLicm) (s : State W) : Prop :=
  st.index < st.function.instructions.length → ∀ site, st.site = some site →
    NullhoistSite.Met H st.function st.index site s

/-- A round keeps the ends of a run that meets the conditions. -/
theorem outcome_round {H : Host W} (hhost : H.TrapStops) (h : st.WellNamed) (hmet : st.Met H s) (o : Option Value × W) :
    Outcome H st.function (.at 0 s) o ↔ Outcome H st.round.function (.at 0 s) o := by
  rcases Nat.lt_or_ge st.index st.function.instructions.length with hlt | hge
  · cases hsite : st.site with
    | none => rw [round_of_none hlt hsite]
    | some site =>
      rw [round_of_some hlt hsite]
      exact (NullhoistSite.shape_of_site hsite h.labels).outcomes hhost h.labels h.fresh_skip
        (hmet hlt site hsite) o
  · rw [round_of_length_le hge]

/-- After any number of rounds the names are in order and the outcomes are those of the function. -/
theorem after_spec {H : Host W} (hhost : H.TrapStops) {fn : Function} {counter : ℕ}
    (hnames : WellNamed ⟨fn, 0, counter⟩) (hmet : ∀ n, (after fn counter n).Met H s) (n : ℕ) :
    (after fn counter n).WellNamed ∧
      ∀ o, Outcome H fn (.at 0 s) o ↔ Outcome H (after fn counter n).function (.at 0 s) o := by
  induction n with
  | zero => exact ⟨hnames, fun _ => Iff.rfl⟩
  | succ n ih =>
    rw [after_succ]
    exact ⟨ih.1.round, fun o => (ih.2 o).trans (outcome_round hhost ih.1 (hmet n) o)⟩

end NullCheckLicm

/-- Hoisting null checks keeps the ends of every run that meets the conditions of each hoist: the function
traps when it did, in the same state of the host, and otherwise returns the same value or runs on. -/
theorem nullCheckLicmPass_outcomes {H : Host W} (hhost : H.TrapStops) {fn : Function} {counter : ℕ}
    (hnames : NullCheckLicm.WellNamed ⟨fn, 0, counter⟩) {s : State W}
    (hmet : ∀ n, (NullCheckLicm.after fn counter n).Met H s) (o : Option Value × W) :
    Outcome H fn (.at 0 s) o ↔ Outcome H (nullCheckLicmPass fn counter) (.at 0 s) o :=
  (NullCheckLicm.after_spec hhost hnames hmet _).2 o

/-- A loop that checks a pointer in every iteration and then executes the instructions given. -/
def checkedLoop (body : List Inst) : Function where
  instructions := [
    { op := .label, text := some "ir_while_0" },
    { op := .branchZero, lhs := .ofSymbol "n", text := some "ir_while_end_1" },
    { op := .branchZero, lhs := .ofSymbol "p", text := some "ir_trap_null_2" },
    { op := .jump, text := some "ir_nonnull_3" },
    { op := .label, text := some "ir_trap_null_2" },
    { op := .call, text := some "mettle_crash_trap" },
    { op := .label, text := some "ir_nonnull_3" },
    { op := .binary, dest := .ofSymbol "n", lhs := .ofSymbol "n", rhs := .ofInt 1, text := some "-" }] ++ body ++
    [{ op := .jump, text := some "ir_while_0" },
    { op := .label, text := some "ir_while_end_1" },
    { op := .return, lhs := .ofSymbol "n" }]

/-- The check of the loop. -/
def checkedSite : NullhoistSite where
  check := 2
  diamond := { symbolName := "p", jump := 3, trapLabel := 4, call := 5, okLabel := 6 }
  entryBranch := 1

/-- One iteration to go, and a pointer that is not null. -/
def onceNonnull : State Unit where
  env := fun x => if x = "n" ∨ x = "p" then some { value := .ofInt 1, size := 8 } else none
  world := ()

/-- What `NullhoistSite.StepMet` asks of a step that is not above the header, of the loop with a check at 2. -/
def stepGood (fn : Function) : Config Unit → Bool
  | .at pc s =>
    (pc = 2 → (s.fetch Host.scalars (.ofSymbol "p")).any Value.truth) ∧
      (step Host.scalars fn (.at pc s)).all fun d =>
        match d with
        | .at q _ => (2 ≤ pc ∧ pc ≤ 6) ∨ ¬ (2 < q ∧ q ≤ 6)
        | .returned _ _ => true
  | .returned _ _ => true

/-- The condition of a step, as it is computed for the example. -/
theorem stepMet_of_stepGood {c : Config Unit} (h : stepGood (checkedLoop []) c = true) :
    NullhoistSite.StepMet Host.scalars (checkedLoop []) 0 checkedSite c where
  entry := by
    rintro s ⟨p, t, -, hp, -⟩
    omega
  check := by
    rintro s rfl
    exact (any_eq_true _ _).mp ((of_decide_eq_true h).1 rfl)
  inside := by
    rintro p s q t rfl hstep hp
    have hgood := (of_decide_eq_true h).2
    change step Host.scalars (checkedLoop []) (.at p s) = _ at hstep
    rw [hstep] at hgood
    have hpos := of_decide_eq_true hgood
    show ¬ (2 < q ∧ q ≤ 6)
    change p < 2 ∨ 6 < p at hp
    omega

/-- The loop after the hoist. -/
def hoistedLoop (body : List Inst) : Function :=
  (checkedLoop body).nullhoist 0 checkedSite ("ir_nullhoist_skip_" ++ toString 0)

/-- In the example nothing is left to hoist. -/
theorem hoistedLoop_site : ∀ index < (hoistedLoop []).instructions.length, 7 ≤ index →
    (hoistedLoop []).nullhoistSite index = none := by
  decide

/-- The example after its rounds. -/
theorem after_checkedLoop (n : ℕ) :
    ∃ index, 7 ≤ index ∧ NullCheckLicm.after (checkedLoop []) 0 (n + 1) = ⟨hoistedLoop [], index, 1⟩ := by
  induction n with
  | zero =>
    have hsite : NullCheckLicm.site ⟨checkedLoop [], 0, 0⟩ = some checkedSite := by decide
    have hround := NullCheckLicm.round_of_some (show 0 < (checkedLoop []).instructions.length by decide) hsite
    exact ⟨7, le_rfl, hround⟩
  | succ n ih =>
    obtain ⟨index, hindex, ih⟩ := ih
    rw [NullCheckLicm.after_succ, ih]
    rcases Nat.lt_or_ge index (hoistedLoop []).instructions.length with hlt | hge
    · have hsite : NullCheckLicm.site ⟨hoistedLoop [], index, 1⟩ = none := hoistedLoop_site index hlt hindex
      exact ⟨index + 1, by omega, NullCheckLicm.round_of_none hlt hsite⟩
    · exact ⟨index, hindex, NullCheckLicm.round_of_length_le hge⟩

/-- The new names are longer than the texts of the loop. -/
theorem wellNamed_of_short {fn : Function} (hlabels : fn.LabelsDistinct)
    (hshort : ∀ i ∈ fn.instructions, i.text.all fun text => decide (text.length < 18)) :
    NullCheckLicm.WellNamed ⟨fn, 0, 0⟩ where
  labels := hlabels
  fresh := by
    intro n _ k htext
    have hk := Function.forall_insn (P := fun i => i.text.all fun text => decide (text.length < 18)) rfl hshort k
    rw [htext] at hk
    have hlt := of_decide_eq_true hk
    rw [String.length_append] at hlt
    have : "ir_nullhoist_skip_".length = 18 := by decide
    omega

/-- The example meets the condition. -/
theorem checkedLoop_met : NullhoistSite.Met Host.scalars (checkedLoop []) 0 checkedSite onceNonnull where
  start _ := by
    constructor
    · intro s₁ hs₁ _
      cases hs₁
      rfl
    · intro s₁ hs₁ hnull
      obtain rfl := some.inj hs₁.1
      exact absurd ⟨.ofInt 1, rfl, by decide⟩ hnull
  run _ := by
    have hgood : ∀ k ≤ 12, (runN (advance Host.scalars (checkedLoop [])) k (.at 0 onceNonnull)).all
        (stepGood (checkedLoop [])) := by decide
    have hstop : (runN (advance Host.scalars (checkedLoop [])) 13 (.at 0 onceNonnull)).isNone = true := by
      decide
    refine until_of_runN (isNone_iff_eq_none.mp hstop) fun k hk d hd => ?_
    have := hgood k hk
    rw [hd] at this
    exact stepMet_of_stepGood this

/-- The check of the loop is hoisted, and the run still returns zero. -/
theorem nullCheckLicmPass_outcomes_checkedLoop :
    nullCheckLicmPass (checkedLoop []) 0 ≠ checkedLoop [] ∧
      (Outcome Host.scalars (checkedLoop []) (.at 0 onceNonnull) (some (.ofInt 0), ()) ↔
        Outcome Host.scalars (nullCheckLicmPass (checkedLoop []) 0) (.at 0 onceNonnull) (some (.ofInt 0), ())) := by
  refine ⟨by decide +kernel, nullCheckLicmPass_outcomes (fun _ _ _ _ _ => rfl) ?_ ?_ _⟩
  · exact wellNamed_of_short (by unfold Function.LabelsDistinct; decide) (by decide)
  · intro n hlt site hsite
    cases n with
    | zero =>
      have hfound : NullCheckLicm.site ⟨checkedLoop [], 0, 0⟩ = some checkedSite := by decide
      obtain rfl := Option.some.inj (hsite.symm.trans hfound)
      exact checkedLoop_met
    | succ n =>
      obtain ⟨index, hindex, hafter⟩ := after_checkedLoop n
      rw [hafter] at hlt hsite
      have hnone : NullCheckLicm.site ⟨hoistedLoop [], index, 1⟩ = none := hoistedLoop_site index hlt hindex
      rw [hnone] at hsite
      cases hsite

/-- A host whose one global is the pointer, which calls other than the trap clear. -/
def clearingHost : Host (BitVec 64) where
  floats := .zero
  literal := fun _ => (0, 0)
  loadVar := fun w x => if x = "p" then some (.ofInt w) else none
  storeVar := fun _ x v => if x = "p" then some v.i else none
  addressOf := fun _ _ => none
  lookupType := fun _ => none
  declareVar := fun _ _ => none
  concat := fun _ _ _ => none
  load := fun _ _ _ _ => none
  store := fun _ _ _ _ _ _ => none
  new := fun _ _ => none
  call := fun _ i _ =>
    if i.text = some "mettle_crash_trap" ∨ i.text = some "mettle_crash_trap_ex" then none else some (.ofInt 0, 0)
  callIndirect := fun _ _ _ _ => none
  kernel := fun _ _ _ => none

/-- Two iterations to go; the pointer is not null yet. -/
def twiceNonnull : State (BitVec 64) where
  env := fun x => if x = "n" then some { value := .ofInt 2, size := 8 } else none
  world := 1

/-- A call in the loop clears the global pointer: the second iteration traps, and without the check in the
loop it runs on. -/
theorem nullCheckLicmPass_loses_trap :
    ¬ ∀ (H : Host (BitVec 64)) (fn : Function) (counter : ℕ) (s : State (BitVec 64)) (o : Option Value × BitVec 64),
      H.TrapStops → NullCheckLicm.WellNamed ⟨fn, 0, counter⟩ →
        (Outcome H fn (.at 0 s) o ↔ Outcome H (nullCheckLicmPass fn counter) (.at 0 s) o) := by
  intro h
  let fn := checkedLoop [{ op := .call, text := some "clear" }]
  have hhost : clearingHost.TrapStops := fun w i args _ htext => if_pos htext
  have hnames : NullCheckLicm.WellNamed ⟨fn, 0, 0⟩ :=
    wellNamed_of_short (by unfold Function.LabelsDistinct; decide) (by decide)
  have htraps : Outcome clearingHost fn (.at 0 twiceNonnull) (none, 0) :=
    ends_of_runN (n := 12) (by decide) (Option.isNone_iff_eq_none.mp (by decide))
  have hreturns : Outcome clearingHost (nullCheckLicmPass fn 0) (.at 0 twiceNonnull) (some (.ofInt 0), 0) :=
    ends_of_runN (n := 29) (by decide +kernel) (Option.isNone_iff_eq_none.mp (by decide +kernel))
  have heq := hreturns.unique ((h clearingHost fn 0 twiceNonnull (none, 0) hhost hnames).mp htraps)
  cases heq

/-! ## The rounds end -/

namespace NullCheckLicm

/-- The branches from an index on. -/
def branchesFrom (fn : Function) (index : ℕ) : Finset ℕ :=
  (Finset.range fn.instructions.length).filter fun k => index ≤ k ∧ (fn.insn k).op = .branchZero

/-- What is left to do: instructions to look at and branches that may go. -/
def remaining (st : NullCheckLicm) : ℕ :=
  (st.function.instructions.length - st.index) + (branchesFrom st.function st.index).card

/-- The scan of a loop looks for a check behind its header and inside the function. -/
theorem site_bounds {st : NullCheckLicm} {site : NullhoistSite} (h : st.site = some site) :
    st.index < site.check ∧ (st.function.insn site.check).op = .branchZero ∧ site.check ≤ site.diamond.okLabel ∧
      site.diamond.okLabel < st.function.instructions.length := by
  simp only [NullCheckLicm.site, Function.nullhoistSite, bind_eq_bind, bind_eq_some_iff,
    guard_eq_some', exists_const] at h
  obtain ⟨-, backedge, hback, hfind⟩ := h
  obtain ⟨check, hmem, hsite⟩ := List.exists_of_findSome?_eq_some hfind
  simp only [Function.nullhoistSiteAt, bind_eq_bind, bind_eq_some_iff, guard_eq_some',
    exists_const, some.injEq] at hsite
  obtain ⟨d, hd, -, entry, -, -, -, rfl⟩ := hsite
  simp only [Function.matchNullTrapDiamond, bind_eq_bind, bind_eq_some_iff, guard_eq_some',
    exists_const, some.injEq] at hd
  obtain ⟨⟨-, hbranch, -, -⟩, x, -, jump, hjump, -, trapLabel, htrap, -, call, hcall, -, okLabel, hok, -, rfl⟩ := hd
  obtain ⟨h₁, -, -⟩ := Function.findNextNonNop_spec hjump
  obtain ⟨h₂, -, -⟩ := Function.findNextNonNop_spec htrap
  obtain ⟨h₃, -, -⟩ := Function.findNextNonNop_spec hcall
  obtain ⟨h₄, h₄', -⟩ := Function.findNextNonNop_spec hok
  rw [List.mem_range'_1] at hmem
  exact ⟨(by omega : st.index < check), hbranch, (by omega : check ≤ okLabel), h₄'⟩

/-- Each round leaves less to do: a rewriting removes a check, every other round an instruction to look at. -/
theorem remaining_round {st : NullCheckLicm} (hlt : st.index < st.function.instructions.length) :
    st.round.remaining < st.remaining := by
  cases hsite : st.site with
  | none =>
    rw [round_of_none hlt hsite]
    have hsub : branchesFrom st.function (st.index + 1) ⊆ branchesFrom st.function st.index := by
      apply Finset.monotone_filter_right
      exact fun k _ hk => ⟨by omega, hk.2⟩
    have := Finset.card_le_card hsub
    unfold remaining
    dsimp only
    omega
  | some site =>
    obtain ⟨hcheck, hop, hle, hok⟩ := site_bounds hsite
    rw [round_of_some hlt hsite]
    generalize hsnap : st.function.nullhoistSnapshot st.index site st.skipLabel = snap
    have hlength : (st.function.nullhoist st.index site st.skipLabel).instructions.length =
        st.function.instructions.length + snap.length := by
      rw [Function.nullhoist, Function.length_insertAt, Function.length_mapRange, hsnap]
    have hinsn : ∀ k, st.index ≤ k → (st.function.nullhoist st.index site st.skipLabel).insn (k + snap.length) =
        if site.check ≤ k ∧ k < site.diamond.okLabel + 1 then (st.function.insn k).makeNop else st.function.insn k := by
      intro k hk
      rw [Function.nullhoist, hsnap, Function.insn_insertAt_after (by rw [Function.length_mapRange]; omega) hk,
        Function.insn_mapRange (by omega)]
    -- A branch that is left was one before, and it is not the check's.
    have hcard : (branchesFrom (st.function.nullhoist st.index site st.skipLabel) (st.index + snap.length)).card ≤
        ((branchesFrom st.function st.index).erase site.check).card := by
      apply Finset.card_le_card_of_injOn fun k => k - snap.length
      · intro k hk
        simp only [branchesFrom, Finset.coe_filter, Finset.mem_range, Set.mem_ofPred_eq, hlength] at hk
        obtain ⟨hk, hge, hbranch⟩ := hk
        have hold := hinsn (k - snap.length) (by omega)
        rw [show k - snap.length + snap.length = k by omega] at hold
        rw [hold] at hbranch
        split at hbranch
        · cases hbranch
        · next hout =>
          simp only [branchesFrom, Finset.coe_erase, Finset.coe_filter, Finset.mem_range, Set.mem_sdiff,
            Set.mem_ofPred_eq, Set.mem_singleton_iff]
          exact ⟨⟨by omega, by omega, hbranch⟩, by omega⟩
      · intro a ha b hb hab
        simp only [branchesFrom, Finset.coe_filter, Finset.mem_range, Set.mem_ofPred_eq] at ha hb
        dsimp only at hab
        omega
    have hmem : site.check ∈ branchesFrom st.function st.index := by
      simp only [branchesFrom, Finset.mem_filter, Finset.mem_range]
      exact ⟨by omega, by omega, hop⟩
    have herase := Finset.card_erase_lt_of_mem hmem
    unfold remaining
    dsimp only
    omega

/-- So after enough rounds the scan is at the end. -/
theorem after_done {fn : Function} {counter : ℕ} (n : ℕ) :
    (after fn counter n).function.instructions.length ≤ (after fn counter n).index ∨
      (after fn counter n).remaining + n ≤ (after fn counter 0).remaining := by
  induction n with
  | zero => exact Or.inr le_rfl
  | succ n ih =>
    rw [after_succ]
    rcases Nat.lt_or_ge (after fn counter n).index (after fn counter n).function.instructions.length with hlt | hge
    · have := remaining_round hlt
      exact Or.inr (by omega)
    · refine Or.inl ?_
      rw [round_of_length_le hge]
      exact hge

end NullCheckLicm

/-- The loop of the pass has come to its end. -/
theorem nullCheckLicmPass_done (fn : Function) (counter : ℕ) :
    (NullCheckLicm.after fn counter (2 * fn.instructions.length)).function.instructions.length ≤
      (NullCheckLicm.after fn counter (2 * fn.instructions.length)).index := by
  rcases NullCheckLicm.after_done (2 * fn.instructions.length) with hdone | hleft
  · exact hdone
  · have hcard : (NullCheckLicm.branchesFrom fn 0).card ≤ fn.instructions.length := by
      rw [← Finset.card_range fn.instructions.length]
      exact Finset.card_filter_le _ _
    have hzero : (NullCheckLicm.after fn counter 0).remaining =
        fn.instructions.length + (NullCheckLicm.branchesFrom fn 0).card := rfl
    rw [hzero, NullCheckLicm.remaining] at hleft
    omega

end Mettle.Ir

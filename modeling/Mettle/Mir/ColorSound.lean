import Mettle.Mir.ColorAssign

/-!
# Soundness of the colouring allocator

Homes and spill slots, the locations the allocator leaves in the table, and the theorem they add up to: in
a function whose branches the control-flow graph knows, replacing every virtual register by its location
and dropping the merged copies computes the same values.
-/

open List Function

namespace Mettle.Mir

open Mettle.Lib MirFunction ColorState

variable {fn : MirFunction} {cfg : Cfg} {v : ℤ}

/-! ## Homes -/

theorem le_roundToGranule (n : ℤ) : n ≤ roundToGranule n := by
  rw [roundToGranule, safetyGranule]
  omega

/-- The size of a home does not depend on where it is. -/
theorem homeBytesFor_spec (vr : Vreg) (base : ℤ) :
    (homeBytesFor vr base).1 = (homeBytesFor vr 0).1 ∧ 0 ≤ (homeBytesFor vr base).1 ∧
      base ≤ (homeBytesFor vr base).2 := by
  have hpos : (0 : ℤ) ≤ if 0 < vr.homeBytes then vr.homeBytes else 8 := by
    split
    · omega
    · decide
  simp only [homeBytesFor]
  split
  · exact ⟨rfl, hpos.trans (le_roundToGranule _), le_roundToGranule base⟩
  · exact ⟨rfl, hpos, le_rfl⟩

/-- A register after the homes were given out: only the place of an address-taken one changed. -/
structure Homed (before after : Vreg) : Prop where
  shape : after.SameShape before
  plain : before.addressTaken = false → after = before
  inFrame : before.addressTaken = true → after.inRegister = false

/-- The homes do not overlap, and no other register is touched. -/
theorem assignHome_spec (fn : MirFunction) (vregs : ℤ → Vreg) (base : ℤ) :
    ∃ vregs' next, fn.vregIds.foldl assignHome (vregs, base) = (vregs', next) ∧
      (∀ v, fn.valid v = true → Homed (vregs v) (vregs' v)) ∧
      Layout (fun v => fn.valid v = true ∧ (vregs v).addressTaken = true)
        (fun v => (vregs' v).spillOffset - slotBytes (vregs' v)) (fun v => (vregs' v).spillOffset)
        base next := by
  -- over the registers done so far: their homes are laid out below `next`, apart from one another
  have hfold : ∀ (l : List ℤ) (done : ℤ → Prop) (vregs' : ℤ → Vreg) (next : ℤ),
      l.Nodup → (∀ v ∈ l, ¬ done v) → (∀ v, done v → Homed (vregs v) (vregs' v)) →
      (∀ v, ¬ done v → vregs' v = vregs v) →
      Layout (fun v => done v ∧ (vregs v).addressTaken = true)
        (fun v => (vregs' v).spillOffset - slotBytes (vregs' v)) (fun v => (vregs' v).spillOffset)
        base next →
      ∃ vregs'' next', l.foldl assignHome (vregs', next) = (vregs'', next') ∧
        (∀ v, v ∈ l ∨ done v → Homed (vregs v) (vregs'' v)) ∧
        Layout (fun v => (v ∈ l ∨ done v) ∧ (vregs v).addressTaken = true)
          (fun v => (vregs'' v).spillOffset - slotBytes (vregs'' v)) (fun v => (vregs'' v).spillOffset)
          base next' := by
    intro l
    induction l with
    | nil =>
      intro done vregs' next _ _ hhomed _ hlayout
      exact ⟨vregs', next, rfl, by simpa using hhomed, by simpa using hlayout⟩
    | cons v rest ih =>
      intro done vregs' next hnodup hfresh hhomed hrest hlayout
      obtain ⟨hv, hnodup⟩ := nodup_cons.mp hnodup
      have hdone : ∀ w, (w ∈ v :: rest ∨ done w) ↔ (w ∈ rest ∨ (w = v ∨ done w)) := by
        intro w
        rw [mem_cons]
        tauto
      have hnew := hrest v (hfresh v (mem_cons_self ..))
      rw [foldl_cons]
      simp only [hdone]
      have hfresh' : ∀ w ∈ rest, ¬ (w = v ∨ done w) := by
        rintro w hw (rfl | hd)
        · exact hv hw
        · exact hfresh w (.tail _ hw) hd
      by_cases haddr : (vregs v).addressTaken = true
      · obtain ⟨hbytes, hpos, hbase⟩ := homeBytesFor_spec (vregs v) next
        have hassign : assignHome (vregs', next) v = (update vregs' v ((vregs v).inSlot
            ((homeBytesFor (vregs v) next).2 + (homeBytesFor (vregs v) next).1)),
            (homeBytesFor (vregs v) next).2 + (homeBytesFor (vregs v) next).1) := by
          simp only [assignHome, hnew, haddr, if_true]
        rw [hassign]
        refine ih (fun w => w = v ∨ done w) _ _ hnodup hfresh' ?_ ?_ ?_
        · rintro w hw
          by_cases hwv : w = v
          · subst hwv
            rw [update_self]
            exact ⟨⟨rfl, rfl, rfl, rfl, rfl⟩, fun h => absurd haddr (by simp [h]), fun _ => rfl⟩
          · rw [update_of_ne hwv]
            exact hhomed w (hw.resolve_left hwv)
        · intro w hw
          rw [not_or] at hw
          rw [update_of_ne hw.1]
          exact hrest w hw.2
        · refine hlayout.push (k := v) (fun w hw => ?_) ?_ ?_ (by omega)
          · by_cases hwv : w = v
            · exact .inl hwv
            · simp only [update_of_ne hwv]
              exact .inr ⟨hwv, ⟨hw.1.resolve_left hwv, hw.2⟩, trivial, trivial⟩
          · have hslot : ∀ offset, slotBytes ((vregs v).inSlot offset) = (homeBytesFor (vregs v) next).1 := by
              intro offset
              rw [slotBytes, if_pos (show ((vregs v).inSlot offset).addressTaken = true from haddr), hbytes]
              rfl
            simp only [update_self, hslot, Vreg.inSlot_spillOffset]
            omega
          · simp only [update_self, Vreg.inSlot_spillOffset, le_refl]
      · have hassign : assignHome (vregs', next) v = (vregs', next) := by
          simp only [assignHome, hnew, haddr]
          rfl
        rw [hassign]
        refine ih (fun w => w = v ∨ done w) _ _ hnodup hfresh' ?_ ?_ ?_
        · rintro w (rfl | hw)
          · rw [hnew]
            exact ⟨.refl _, fun _ => rfl, fun h => absurd h haddr⟩
          · exact hhomed w hw
        · intro w hw
          rw [not_or] at hw
          exact hrest w hw.2
        · refine hlayout.mono fun w hw => ⟨⟨hw.1.resolve_left ?_, hw.2⟩, rfl, rfl⟩
          rintro rfl
          exact haddr hw.2
  obtain ⟨vregs', next, heq, hhomed, hlayout⟩ := hfold fn.vregIds (fun _ => False) vregs base
    (nodup_vregIds fn) (fun _ _ h => h) (fun _ h => absurd h id) (fun _ _ => rfl)
    (Layout.empty (fun _ h => h.1) base)
  simp only [or_false, mem_vregIds] at hhomed hlayout
  exact ⟨vregs', next, heq, hhomed, hlayout⟩

/-! ## The table after the allocation -/

/-- A register that is mentioned and whose address is not taken: it gets a colour. -/
structure Plain (fn : MirFunction) (v : ℤ) : Prop where
  valid : fn.valid v = true
  hasOperand : fn.hasOperand v = true
  notTaken : (fn.vreg v).addressTaken = false

/-- A register that has a place. -/
def Placed (fn : MirFunction) (v : ℤ) : Prop :=
  Plain fn v ∨ (fn.valid v = true ∧ (fn.vreg v).addressTaken = true)

/-- No copy goes between a register with a wide spill slot and one with a narrow one. The merges do not
compare widths. -/
def CopiesKeepWidth (fn : MirFunction) : Prop :=
  ∀ i, (fn.insn i).isCopy = true → Plain fn (fn.insn i).dst.vreg → Plain fn (fn.insn i).a.vreg →
    (fn.vreg (fn.insn i).dst.vreg).rclass = (fn.vreg (fn.insn i).a.vreg).rclass →
    (8 < (fn.vreg (fn.insn i).dst.vreg).width ↔ 8 < (fn.vreg (fn.insn i).a.vreg).width)

/-- Two registers that may not share a machine register: one is written while the other is held, or both
are live at entry. -/
inductive Conflict (fn : MirFunction) : ℤ → ℤ → Prop
  | write {i : ℕ} {d v : ℤ} : i < fn.insnCount → d ∈ fn.defs i → HeldOver fn i v → Conflict fn d v
  | entry {v w : ℤ} : v ∈ fn.entryDefs → w ∈ fn.entryDefs → LiveAt fn 0 v → LiveAt fn 0 w → v ≠ w →
    Conflict fn v w

/-- What the allocator leaves in the table: `rep` is the representative of a register after the
merges. -/
structure Outcome (t : Target) (fn : MirFunction) (rep : ℤ → ℤ) (base : ℤ) (vregs : ℤ → Vreg) : Prop where
  shape : ∀ v, fn.valid v = true → (vregs v).SameShape (fn.vreg v)
  inRegister : ∀ v, fn.valid v = true → (vregs (rep v)).inRegister = (vregs v).inRegister
  phys : ∀ v, fn.valid v = true → (vregs (rep v)).phys = (vregs v).phys
  spillOffset : ∀ v, fn.valid v = true → (vregs (rep v)).spillOffset = (vregs v).spillOffset
  valid : ∀ v, fn.valid v = true → fn.valid (rep v) = true
  rclass : ∀ v, fn.valid v = true → (fn.vreg (rep v)).rclass = (fn.vreg v).rclass
  bytes : ∀ v, Placed fn v → slotBytes (fn.vreg (rep v)) = slotBytes (fn.vreg v)
  other : ∀ v, fn.valid v = false → rep v = v
  plain : ∀ v, Plain fn v → Plain fn (rep v)
  idem : ∀ v, Placed fn v → rep (rep v) = rep v
  home : ∀ v, fn.valid v = true → (fn.vreg v).addressTaken = true →
    rep v = v ∧ (vregs v).inRegister = false
  safe : ∀ v, Plain fn v → (vregs v).inRegister = true → ∀ i < fn.insnCount, HeldOver fn i v →
    (fn.insn i).overwrites t.sysv (.reg (vregs v).rclass (vregs v).phys) = false
  apart : ∀ d v, Conflict fn d v → Plain fn d → Plain fn v →
    (fn.vreg d).rclass = (fn.vreg v).rclass → rep d ≠ rep v ∧
      ((vregs d).inRegister = true → (vregs v).inRegister = true → (vregs d).phys ≠ (vregs v).phys)
  layout : ∃ next, Layout (fun v => Placed fn v ∧ rep v = v ∧ (vregs v).inRegister = false)
    (fun v => (vregs v).spillOffset - slotBytes (fn.vreg v)) (fun v => (vregs v).spillOffset) base next

/-- The location a table entry names. -/
def Vreg.loc (vr : Vreg) : Loc := if vr.inRegister then .reg vr.rclass vr.phys else .slot vr.spillOffset

theorem slotBytes_pos (vr : Vreg) : 0 < slotBytes vr := by
  rw [slotBytes]
  split
  · have hpos : (0 : ℤ) < if 0 < vr.homeBytes then vr.homeBytes else 8 := by
      split
      · assumption
      · decide
    simp only [homeBytesFor]
    split
    · exact hpos.trans_le (le_roundToGranule _)
    · exact hpos
  · rw [ColorState.spillBytes]
    split <;> decide

/-- What is used or defined is a register that some operand names. -/
theorem hasOperand_of_mem {i : ℕ} (h : v ∈ fn.uses i ∨ v ∈ fn.defs i) :
    fn.valid v = true ∧ fn.hasOperand v = true := by
  have hmem : fn.valid v = true ∧ (fn.insn i).op ≠ .nop ∧ v ∈ (fn.insn i).mentions := by
    rcases h with h | h
    · simp only [MirFunction.uses, mem_toFinset, mem_filter, Inst.uses] at h
      obtain ⟨h, hvalid⟩ := h
      split at h
      · exact absurd h not_mem_nil
      rename_i hnop
      refine ⟨hvalid, hnop, ?_⟩
      simp only [mem_append] at h
      rcases h with (h | h) | h
      · split at h
        · exact mem_append_left _ (mem_append_left _ h)
        · exact absurd h not_mem_nil
      · exact mem_append_left _ (mem_append_right _ h)
      · exact mem_append_right _ h
    · rw [MirFunction.defs] at h
      split at h
      · rename_i hvalid
        obtain rfl := Finset.mem_singleton.mp h
        have hdef : (fn.insn i).op ≠ .nop ∧ (fn.insn i).dst.kind = .vreg := by
          by_contra hnot
          rw [Inst.defs, if_neg hnot] at hvalid
          simp [valid] at hvalid
        refine ⟨hvalid, hdef.1, mem_append_left _ (mem_append_left _ ?_)⟩
        rw [Inst.defs, if_pos hdef, Operand.vregs, hdef.2]
        exact mem_singleton_self _
      · exact absurd h (Finset.notMem_empty _)
  obtain ⟨hvalid, hnop, hmention⟩ := hmem
  refine ⟨hvalid, any_eq_true.mpr ⟨fn.insn i, ?_, by simp [hnop, hmention]⟩⟩
  by_cases hi : i < fn.insnCount
  · rw [insn, getD_eq_getElem?_getD, List.getElem?_eq_getElem hi, Option.getD_some]
    exact getElem_mem hi
  · rw [insn_of_le (Nat.le_of_not_lt hi)] at hnop
    exact absurd rfl hnop

/-- What an operand names is given a place. -/
theorem placed_of_hasOperand (hvalid : fn.valid v = true) (hop : fn.hasOperand v = true) :
    Placed fn v := by
  cases haddr : (fn.vreg v).addressTaken with
  | false => exact .inl ⟨hvalid, hop, haddr⟩
  | true => exact .inr ⟨hvalid, haddr⟩

theorem LiveAt.placed {i : ℕ} (h : LiveAt fn i v) : Placed fn v := by
  induction h with
  | read huse =>
    obtain ⟨hvalid, hop⟩ := hasOperand_of_mem (.inl huse)
    exact placed_of_hasOperand hvalid hop
  | pass _ _ _ ih => exact ih

theorem Conflict.ne {d v : ℤ} (h : Conflict fn d v) : d ≠ v := by
  cases h with
  | write _ hd hheld =>
    rintro rfl
    exact hheld.notMem hd
  | entry _ _ _ _ hne => exact hne

theorem Conflict.placed {d v : ℤ} (h : Conflict fn d v) : Placed fn d ∧ Placed fn v := by
  cases h with
  | write _ hd hheld =>
    obtain ⟨hvalid, hop⟩ := hasOperand_of_mem (.inr hd)
    obtain ⟨_, _, hlive⟩ := hheld.liveAfter
    exact ⟨placed_of_hasOperand hvalid hop, hlive.placed⟩
  | entry _ _ hlv hlw _ => exact ⟨hlv.placed, hlw.placed⟩

variable {t : Target} {rep : ℤ → ℤ} {base : ℤ} {vregs : ℤ → Vreg}

theorem Placed.valid (h : Placed fn v) : fn.valid v = true := h.elim Plain.valid And.left

/-- The representative of what is placed is placed. -/
theorem Outcome.placed (h : Outcome t fn rep base vregs) (hv : Placed fn v) : Placed fn (rep v) := by
  rcases hv with hv | ⟨hvalid, haddr⟩
  · exact .inl (h.plain v hv)
  · rw [(h.home v hvalid haddr).1]
    exact .inr ⟨hvalid, haddr⟩

/-- Registers in conflict have different representatives. -/
theorem Outcome.rep_ne (h : Outcome t fn rep base vregs) {d v : ℤ} (hconf : Conflict fn d v) : rep d ≠ rep v := by
  obtain ⟨hd, hv⟩ := hconf.placed
  intro heq
  rcases hd with hd | ⟨hdvalid, hdaddr⟩
  · rcases hv with hv | ⟨hvvalid, hvaddr⟩
    · by_cases hclass : (fn.vreg d).rclass = (fn.vreg v).rclass
      · exact (h.apart d v hconf hd hv hclass).1 heq
      · exact hclass (by rw [← h.rclass d hd.valid, heq, h.rclass v hv.valid])
    · have hplain := (h.plain d hd).notTaken
      rw [heq, (h.home v hvvalid hvaddr).1, hvaddr] at hplain
      cases hplain
  · rw [(h.home d hdvalid hdaddr).1] at heq
    rcases hv with hv | ⟨hvvalid, hvaddr⟩
    · have hplain := (h.plain v hv).notTaken
      rw [← heq, hdaddr] at hplain
      cases hplain
    · rw [(h.home v hvvalid hvaddr).1] at heq
      exact hconf.ne heq

/-- Registers in conflict have different locations. -/
theorem Outcome.loc_ne (h : Outcome t fn rep base vregs) {d v : ℤ} (hconf : Conflict fn d v) :
    (vregs d).loc ≠ (vregs v).loc := by
  obtain ⟨hd, hv⟩ := hconf.placed
  have hne := h.rep_ne hconf
  rw [Vreg.loc, Vreg.loc]
  -- registers against registers and slots against slots; a register and a slot differ
  split
  · rename_i hdreg
    split
    · rename_i hvreg
      intro heq
      obtain ⟨hclass, hphys⟩ := Loc.reg.inj heq
      rw [(h.shape d hd.valid).rclass, (h.shape v hv.valid).rclass] at hclass
      rcases hd with hd | ⟨hdvalid, hdaddr⟩
      · rcases hv with hv | ⟨hvvalid, hvaddr⟩
        · exact (h.apart d v hconf hd hv hclass).2 hdreg hvreg hphys
        · rw [(h.home v hvvalid hvaddr).2] at hvreg
          cases hvreg
      · rw [(h.home d hdvalid hdaddr).2] at hdreg
        cases hdreg
    · nofun
  · rename_i hdslot
    split
    · nofun
    · rename_i hvslot
      intro heq
      have hoff := Loc.slot.inj heq
      rw [Bool.not_eq_true] at hdslot hvslot
      obtain ⟨next, hlayout⟩ := h.layout
      have hpd := slotBytes_pos (fn.vreg (rep d))
      have hpv := slotBytes_pos (fn.vreg (rep v))
      have happart := hlayout.apart (rep d) (rep v)
        ⟨h.placed hd, h.idem d hd, by rw [h.inRegister d hd.valid]; exact hdslot⟩
        ⟨h.placed hv, h.idem v hv, by rw [h.inRegister v hv.valid]; exact hvslot⟩ hne
      rw [h.spillOffset d hd.valid, h.spillOffset v hv.valid, hoff] at happart
      omega

/-! ## From the graph to the table -/

/-- The table the graph is built from. -/
structure Prepared (fn : MirFunction) (vregs : ℤ → Vreg) : Prop where
  shape : ∀ v, fn.valid v = true → (vregs v).SameShape (fn.vreg v)
  hasInterval : ∀ v, fn.valid v = true → (fn.vreg v).addressTaken = false →
    (vregs v).hasInterval = fn.hasOperand v
  barrier : ∀ v, Plain fn v → ∀ i < fn.insnCount, HeldOver fn i v → KnowsBarrier fn i (vregs v)
  home : ∀ v, fn.valid v = true → (fn.vreg v).addressTaken = true → (vregs v).inRegister = false

/-- A hint changes no shape and no interval. -/
theorem noteCoalesceHint_same (fn : MirFunction) (facts : RaFacts) (vregs : ℤ → Vreg) (i : ℕ) (v : ℤ) :
    (fn.noteCoalesceHint facts vregs i v).SameShape (vregs v) ∧
      (fn.noteCoalesceHint facts vregs i v).hasInterval = (vregs v).hasInterval := by
  rcases hc : fn.coalesceCandidate facts vregs i with _ | ⟨d, hint⟩
  · simp only [noteCoalesceHint, hc]
    exact ⟨.refl _, trivial⟩
  · simp only [noteCoalesceHint, hc, update_apply]
    split
    · rename_i hv
      subst hv
      exact ⟨⟨rfl, rfl, rfl, rfl, rfl⟩, rfl⟩
    · exact ⟨.refl _, rfl⟩

/-- Nor do all of them. -/
theorem computeCoalesceHints_same (fn : MirFunction) (facts : RaFacts) (vregs : ℤ → Vreg) (v : ℤ) :
    (fn.computeCoalesceHints facts vregs v).SameShape (vregs v) ∧
      (fn.computeCoalesceHints facts vregs v).hasInterval = (vregs v).hasInterval := by
  have hfold : ∀ (l : List ℕ) (vregs' : ℤ → Vreg),
      (vregs' v).SameShape (vregs v) ∧ (vregs' v).hasInterval = (vregs v).hasInterval →
      (l.foldl (fn.noteCoalesceHint facts) vregs' v).SameShape (vregs v) ∧
        (l.foldl (fn.noteCoalesceHint facts) vregs' v).hasInterval = (vregs v).hasInterval := by
    intro l
    induction l with
    | nil => exact fun vregs' h => h
    | cons i rest ih =>
      intro vregs' h
      obtain ⟨hshape, hinterval⟩ := noteCoalesceHint_same fn facts vregs' i v
      exact ih _ ⟨hshape.trans h.1, hinterval.trans h.2⟩
  exact hfold _ _ ⟨⟨rfl, rfl, rfl, rfl, rfl⟩, rfl⟩

/-- The table after the intervals, the hints, the barriers and the homes. -/
theorem prepared (hbt : fn.NoBitTest) (h : mirCfgBuild fn = some cfg) {vregs' : ℤ → Vreg}
    (hvregs : vregs = fn.markCrossesCall cfg (fn.computeCoalesceHints (factsBuild fn cfg)
      (fn.computeLiveness fn.vreg)))
    (hhomed : ∀ v, fn.valid v = true → Homed (vregs v) (vregs' v)) :
    Prepared fn vregs' ∧ ∀ v, (vregs v).addressTaken = (fn.vreg v).addressTaken := by
  obtain ⟨hshape, hbarrier⟩ := markCrossesCall_spec hbt h
    (fn.computeCoalesceHints (factsBuild fn cfg) (fn.computeLiveness fn.vreg))
  rw [← hvregs] at hshape hbarrier
  have hsame : ∀ v, (vregs v).SameShape (fn.vreg v) ∧ (vregs v).hasInterval = fn.hasOperand v := by
    intro v
    obtain ⟨h₁, h₂⟩ := hshape v
    obtain ⟨h₃, h₄⟩ :=
      computeCoalesceHints_same fn (factsBuild fn cfg) (fn.computeLiveness fn.vreg) v
    have h₅ : (fn.computeLiveness fn.vreg v).SameShape (fn.vreg v) := ⟨rfl, rfl, rfl, rfl, rfl⟩
    exact ⟨h₁.trans (h₃.trans h₅), h₂.trans h₄⟩
  have haddr := fun v => (hsame v).1.addressTaken
  refine ⟨⟨fun v hv => (hhomed v hv).shape.trans (hsame v).1, fun v hv hplain => ?_,
    fun v hv i hi hheld => ?_, fun v hv htaken => ?_⟩, haddr⟩
  · rw [(hhomed v hv).plain (by rw [haddr]; exact hplain)]
    exact (hsame v).2
  · rw [(hhomed v hv.valid).plain (by rw [haddr]; exact hv.notTaken)]
    exact hbarrier i hi v hheld
  · exact (hhomed v hv).inFrame (by rw [haddr]; exact htaken)

/-- The state before the first edge. -/
theorem colorStateInit_colorable {facts : RaFacts} {allowRbp : Bool} (hprep : Prepared fn vregs) :
    (fn.colorStateInit t facts allowRbp vregs).colorable v = true ↔ Plain fn v := by
  simp only [colorStateInit, Bool.and_eq_true, Bool.not_eq_true']
  constructor
  · rintro ⟨⟨hvalid, hinterval⟩, haddr⟩
    rw [(hprep.shape v hvalid).addressTaken] at haddr
    exact ⟨hvalid, (hprep.hasInterval v hvalid haddr).symm.trans hinterval, haddr⟩
  · intro h
    refine ⟨⟨h.valid, (hprep.hasInterval v h.valid h.notTaken).trans h.hasOperand⟩, ?_⟩
    rw [(hprep.shape v h.valid).addressTaken]
    exact h.notTaken

/-- The interference graph over the prepared table. -/
theorem graph_spec (hbt : fn.NoBitTest) (h : mirCfgBuild fn = some cfg) (t : Target)
    (allowRbp : Bool) (hprep : Prepared fn vregs) {st₀ : ColorState}
    (hst₀ : st₀ = ((fn.colorStateInit t (factsBuild fn cfg) allowRbp vregs).addExactEdges
      fn cfg).addNarrowingEdges fn) :
    GraphOk fn st₀ ∧ (∀ v, st₀.colorable v = true ↔ Plain fn v) ∧ st₀.vregs = vregs ∧
      (st₀.rep = fun v => v) ∧ (∀ v, st₀.removed v = false) ∧
      (∀ v, Plain fn v → st₀.mask v = fn.colorRegMask t (factsBuild fn cfg) allowRbp vregs v) ∧
      ∀ d v, Conflict fn d v → Plain fn d → Plain fn v →
        (fn.vreg d).rclass = (fn.vreg v).rclass → v ∈ st₀.inter d := by
  have hok : GraphOk fn (fn.colorStateInit t (factsBuild fn cfg) allowRbp vregs) := by
    refine ⟨fun v hv => ((colorStateInit_colorable hprep).mp hv).valid, ?_, ?_, ?_⟩
    · exact fun a b hb => absurd hb (Finset.notMem_empty _)
    · exact fun a ha => absurd ha (Finset.notMem_empty _)
    · exact fun a b hb => absurd hb (Finset.notMem_empty _)
  -- the edges of the interference are added, the narrowing ones only on top
  obtain ⟨hgrows, hedges, hentry⟩ := addExactEdges_spec hbt h hok
  have hnarrow := addNarrowingEdges_grows fn
    ((fn.colorStateInit t (factsBuild fn cfg) allowRbp vregs).addExactEdges fn cfg)
  rw [← hst₀] at hnarrow
  have hall := hgrows.trans hnarrow
  have hcolorable : ∀ v, st₀.colorable v = true ↔ Plain fn v := by
    intro v
    rw [hall.colorable]
    exact colorStateInit_colorable hprep
  refine ⟨hall.ok hok, hcolorable, hall.vregs, ?_, ?_, fun v hv => ?_, ?_⟩
  · obtain ⟨inter, degree, heq⟩ := hall.rest
    rw [heq]
    rfl
  · obtain ⟨inter, degree, heq⟩ := hall.rest
    rw [heq]
    exact fun _ => rfl
  · have hcol : (fn.colorStateInit t (factsBuild fn cfg) allowRbp vregs).colorable v = true :=
      (colorStateInit_colorable hprep).mpr hv
    obtain ⟨inter, degree, heq⟩ := hall.rest
    rw [heq]
    exact if_pos hcol
  · intro d v hconf hd hv hclass
    have hclass' : (st₀.vregs d).rclass = (st₀.vregs v).rclass := by
      rw [hall.vregs]
      exact ((hprep.shape d hd.valid).rclass.trans hclass).trans (hprep.shape v hv.valid).rclass.symm
    cases hconf with
    | write hi hmem hheld =>
      exact ((hedges _ hi).mono hnarrow) d hmem v hheld ((hcolorable d).mpr hd) ((hcolorable v).mpr hv) hclass'
    | entry hed hev hld hlv hne =>
      exact (hentry.mono hnarrow) d hed v hev hld hlv hne ((hcolorable d).mpr hd) ((hcolorable v).mpr hv) hclass'

/-! ## From the colours to the table -/

section Mirror

variable {st₀ st : ColorState} {cfg : Cfg} {allowRbp : Bool} {final : ℤ → Vreg} {k : ℕ} {next : ℤ}

/-- The entry of a register after `mir_color_mirror_members`. -/
theorem mirrorMembers_spec (fn : MirFunction) (st : ColorState) (v : ℤ) :
    (st.mirrorMembers fn v).SameShape (st.vregs v) ∧
      (st.mirrorMembers fn v).inRegister = (st.vregs (st.find fn v)).inRegister ∧
      (st.mirrorMembers fn v).phys = (st.vregs (st.find fn v)).phys ∧
      (st.mirrorMembers fn v).spillOffset = (st.vregs (st.find fn v)).spillOffset := by
  simp only [mirrorMembers]
  split
  · rename_i hroot
    rw [hroot]
    exact ⟨.refl _, rfl, rfl, rfl⟩
  · exact ⟨⟨rfl, rfl, rfl, rfl, rfl⟩, rfl, rfl, rfl⟩

/-- Colours of the merged graph are places for every register. -/
theorem ColorState.Coalesced.outcome (hbt : fn.NoBitTest) (hxmm : XmmWritesDead fn t.sysv)
    (h : mirCfgBuild fn = some cfg) (hprep : Prepared fn vregs) (hvregs : st₀.vregs = vregs)
    (hcol : ∀ v, st₀.colorable v = true ↔ Plain fn v)
    (hmask : ∀ v, Plain fn v → st₀.mask v = fn.colorRegMask t (factsBuild fn cfg) allowRbp vregs v)
    (hedge : ∀ d v, Conflict fn d v → Plain fn d → Plain fn v →
      (fn.vreg d).rclass = (fn.vreg v).rclass → v ∈ st₀.inter d)
    (hmerged : Coalesced fn st₀ st k)
    (hcolors : Assigned (fun v => fn.valid v = true ∧ (fn.vreg v).addressTaken = true) st
      (fun v => st.colorable v = true) base final next) :
    Outcome t fn (st.find fn) base (({ st with vregs := final } : ColorState).mirrorMembers fn) := by
  have hmirror := mirrorMembers_spec fn { st with vregs := final }
  have hfind : ({ st with vregs := final } : ColorState).find fn = st.find fn := rfl
  simp only [hfind] at hmirror
  -- merging and colouring keep the class and the width of every register
  have hsame : ∀ v, fn.valid v = true → (final v).SameShape (fn.vreg v) := by
    intro v hv
    have hold := (hcolors.shape v).trans (hmerged.shape v)
    rw [hvregs] at hold
    exact hold.trans (hprep.shape v hv)
  -- a register that is not plain is never merged
  have hother : ∀ v, ¬ Plain fn v → st.find fn v = v := by
    intro v hv
    rw [← hcol, Bool.not_eq_true] at hv
    exact hmerged.find_other v hv
  have hplain : ∀ v, Plain fn v → st.colorable (st.find fn v) = true :=
    fun v hv => hmerged.find_colorable v ((hcol v).mpr hv)
  have hplain' : ∀ v, Plain fn v → Plain fn (st.find fn v) :=
    fun v hv => (hcol _).mp (hmerged.colorable _ (hplain v hv))
  refine ⟨fun v hv => (hmirror v).1.trans (hsame v hv), fun v _ => ?_, fun v _ => ?_, fun v _ => ?_,
    fun v hv => hmerged.find_valid hv, fun v hv => ?_, fun v hv => ?_, fun v hv => find_of_not_valid hv,
    hplain', fun v _ => hmerged.find_find v, fun v hv haddr => ?_, fun v hv hreg i hi hheld => ?_, fun d v hconf hd hv hclass => ?_, next, ?_⟩
  · rw [(hmirror _).2.1, (hmirror v).2.1, hmerged.find_find]
  · rw [(hmirror _).2.2.1, (hmirror v).2.2.1, hmerged.find_find]
  · rw [(hmirror _).2.2.2, (hmirror v).2.2.2, hmerged.find_find]
  · by_cases hp : Plain fn v
    · have hclass := hmerged.find_class v ((hcol v).mpr hp)
      rw [hvregs, (hprep.shape v hv).rclass, (hprep.shape _ (hmerged.find_valid hv)).rclass] at hclass
      exact hclass
    · rw [hother v hp]
  · by_cases hp : Plain fn v
    · have hbytes := hmerged.find_bytes v ((hcol v).mpr hp)
      have hroot := hplain' v hp
      rw [hvregs, spillBytes, spillBytes, (hprep.shape v hp.valid).width, (hprep.shape _ hroot.valid).width] at hbytes
      rw [slotBytes, slotBytes, hp.notTaken, hroot.notTaken, spillBytes, spillBytes]
      exact hbytes
    · rw [hother v hp]
  · have hroot := hother v fun hp => by rw [hp.notTaken] at haddr; cases haddr
    have hnot : st.colorable v = false := by
      rw [← Bool.not_eq_true]
      intro hc
      have hp := (hcol v).mp (hmerged.colorable v hc)
      rw [hp.notTaken] at haddr
      cases haddr
    refine ⟨hroot, ?_⟩
    rw [(hmirror v).2.1, hroot, hcolors.others v hnot, (hmerged.slot v).1, hvregs]
    exact hprep.home v hv haddr
  · rw [(hmirror v).2.1] at hreg
    have hmem := hmerged.mask v ((hcol v).mpr hv) (hcolors.color _ (hplain v hv) hreg)
    rw [hmask v hv] at hmem
    have hshape := hprep.shape v hv.valid
    have hclass : (({ st with vregs := final } : ColorState).mirrorMembers fn v).rclass = (vregs v).rclass :=
      ((hmirror v).1.trans (hsame v hv.valid)).rclass.trans hshape.rclass.symm
    rw [hclass, (hmirror v).2.2.1]
    exact colorRegMask_safe hbt hxmm h hi hheld hshape (hshape.addressTaken.trans hv.notTaken)
      (hprep.barrier v hv i hi hheld) hmem
  · have hadj := hmerged.edges d v (hedge d v hconf hd hv hclass)
    refine ⟨fun heq => ?_, fun hdreg hvreg => ?_⟩
    · rw [heq] at hadj
      exact hmerged.ok.irrefl _ hadj
    · rw [(hmirror d).2.1] at hdreg
      rw [(hmirror v).2.1] at hvreg
      rw [(hmirror d).2.2.1, (hmirror v).2.2.1]
      exact hcolors.apart _ _ (hplain d hd) (hplain v hv) hadj hdreg hvreg
  · refine hcolors.layout.mono fun v hv => ?_
    obtain ⟨hplaced, hroot, hslot⟩ := hv
    have hbytes : slotBytes (fn.vreg v) = slotBytes (final v) :=
      (slotBytes_eq (hsame v hplaced.valid)).symm
    rw [(hmirror v).2.1, hroot] at hslot
    refine ⟨?_, ?_, ?_⟩
    · rcases hplaced with hp | hhome
      · refine .inr ⟨?_, hslot⟩
        rw [← hroot]
        exact hplain v hp
      · exact .inl hhome
    · rw [(hmirror v).2.2.2, hroot, hbytes]
    · rw [(hmirror v).2.2.2, hroot]

/-- `mir_color_graph` over the prepared table. -/
theorem colorGraph_outcome (hbt : fn.NoBitTest) (hxmm : XmmWritesDead fn t.sysv) (hwidth : CopiesKeepWidth fn)
    (h : mirCfgBuild fn = some cfg) (allowRbp : Bool) (hprep : Prepared fn vregs)
    (hhomes : Layout (fun v => fn.valid v = true ∧ (fn.vreg v).addressTaken = true)
      (fun v => (vregs v).spillOffset - slotBytes (vregs v)) (fun v => (vregs v).spillOffset)
      base next) :
    ∃ insns vregs' rep frame, colorGraph t fn cfg (factsBuild fn cfg) allowRbp vregs next
        = some ({ fn with insns := insns }, vregs', frame) ∧
      insns.length = fn.insns.length ∧ (∀ i, Renamed rep (fn.insn i) (insns.getD i {})) ∧
      Outcome t fn rep base vregs' := by
  obtain ⟨hok, hcol, hvregs, hrep, hremoved, hmask, hedge⟩ :=
    graph_spec hbt h t allowRbp hprep rfl
  have hkeep : CopiesKeepBytes fn (((fn.colorStateInit t (factsBuild fn cfg) allowRbp
      vregs).addExactEdges fn cfg).addNarrowingEdges fn) := by
    intro i hcopy hd hs hclass
    rw [hcol] at hd hs
    have hshapeD := hprep.shape _ hd.valid
    have hshapeS := hprep.shape _ hs.valid
    rw [hvregs, hshapeD.rclass, hshapeS.rclass] at hclass
    rw [hvregs, ColorState.spillBytes, ColorState.spillBytes, hshapeD.width, hshapeS.width]
    simp only [hwidth i hcopy hd hs hclass]
  obtain ⟨insns, stM, k, hmergedEq, hmerged, hlength, hrenamed⟩ :=
    merged_spec t (factsBuild fn cfg) hok hrep hremoved hkeep
  -- hints and order change nothing the colours depend on
  obtain ⟨hhints, -⟩ := notePhysHints_same { fn with insns := insns } stM
  generalize hstN : stM.notePhysHints { fn with insns := insns } = stN at hhints
  have hnoted := hmerged.sameGraph hhints
  have hvalid : ∀ v, stN.colorable v = true → MirFunction.valid { fn with insns := insns } v = true := hnoted.ok.valid
  obtain ⟨⟨removed, degree, metric, horder⟩, hstack⟩ := orderVregs_spec hvalid hnoted.kept
  generalize hstack' : (stN.orderVregs { fn with insns := insns }).2 = stack at hstack
  have hordered : stN.orderVregs { fn with insns := insns }
      = ({ stN with removed := removed, degree := degree, metric := metric }, stack) :=
    Prod.ext horder hstack'
  have htable : ∀ v, (stN.vregs v).SameShape (vregs v) ∧ (stN.vregs v).spillOffset = (vregs v).spillOffset := by
    intro v
    rw [← hvregs]
    exact ⟨hnoted.shape v, (hnoted.slot v).2⟩
  have hplain : ∀ v, stN.colorable v = true → Plain fn v :=
    fun v hv => (hcol v).mp (hnoted.colorable v hv)
  have hcolorable : Colorable { fn with insns := insns }
      (fun v => fn.valid v = true ∧ (fn.vreg v).addressTaken = true)
      { stN with removed := removed, degree := degree, metric := metric } := by
    refine ⟨⟨hnoted.ok.valid, hnoted.ok.symm, hnoted.ok.irrefl, hnoted.ok.colorable⟩,
      fun v hv r hr => ?_, fun v hv => ?_, fun v hv => ?_⟩
    · have hroot : stN.find fn v = v := find_of_root (hnoted.root v hv)
      have hmem := hnoted.mask v (hnoted.colorable v hv)
      rw [hroot, hmask v (hplain v hv)] at hmem
      exact colorRegMask_sixteen (hmem hr)
    · rw [((htable v).1.trans (hprep.shape v (hplain v hv).valid)).addressTaken]
      exact (hplain v hv).notTaken
    · rw [← Bool.not_eq_true]
      intro hc
      have htaken := hv.2
      rw [(hplain v hc).notTaken] at htaken
      cases htaken
  have hstart : Assigned (fun v => fn.valid v = true ∧ (fn.vreg v).addressTaken = true)
      { stN with removed := removed, degree := degree, metric := metric } (fun _ => False) base
      stN.vregs next := by
    refine ⟨fun _ hv => hv.elim, fun v => .refl _, fun _ _ => rfl, fun _ hv => hv.elim,
      fun _ _ ha => ha.elim, hhomes.mono fun v hv => ⟨hv.resolve_right And.left, ?_, ?_⟩⟩
    · rw [(htable v).2, slotBytes_eq (htable v).1]
    · exact (htable v).2
  obtain ⟨vregs₁, frame, hassign, hassigned⟩ :=
    hstart.assign hcolorable stack fun v hv => (hstack v).mp hv
  simp only [hstack, or_false] at hassigned
  obtain ⟨final, hmoves, hfinal⟩ := hassigned.coalesceMoves (factsBuild fn cfg) hcolorable 16
  refine ⟨insns, _, stN.find fn, frame, ?_, hlength, ?_, hnoted.outcome hbt hxmm h hprep hvregs hcol hmask hedge
      ⟨hfinal.sub, hfinal.shape, hfinal.others, hfinal.color, hfinal.apart, hfinal.layout⟩⟩
  · simp only [colorGraph]
    rw [hmergedEq, Option.map_some, hstN, hordered]
    rw [hassign]
    rw [hmoves]
    rfl
  · rw [hhints.find]
    exact hrenamed

end Mirror

end Mettle.Mir

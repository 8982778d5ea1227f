import Mettle.Lib.Layout
import Mettle.Mir.ColorGraph

/-!
# Order, colours and slots

The order of removal lists every register to be coloured. Colouring along it gives neighbours
different machine registers, each out of the mask of its owner, or a frame slot of its own; recolouring a
copy keeps that.
-/

open List Option Function

namespace Mettle.Mir

open Mettle.Lib MirFunction

variable {fn : MirFunction} {st st' : ColorState} {v : ℤ}

namespace ColorState

/-! ## Hints -/

/-- A hint keeps the graph and the registers. -/
theorem hintPhys_same (fn : MirFunction) (st : ColorState) (vop pop : Operand) :
    SameGraph st (st.hintPhys fn vop pop) ∧ (st.hintPhys fn vop pop).vregs = st.vregs := by
  simp only [hintPhys]
  split
  · exact ⟨.refl st, rfl⟩
  split
  · exact ⟨⟨rfl, rfl, rfl, rfl, rfl, fun _ => .refl _, fun _ => ⟨rfl, rfl⟩⟩, rfl⟩
  · exact ⟨.refl st, rfl⟩

/-- Hints touch neither the graph nor the table. -/
theorem notePhysHints_same (fn : MirFunction) (st : ColorState) :
    SameGraph st (st.notePhysHints fn) ∧ (st.notePhysHints fn).vregs = st.vregs := by
  rw [notePhysHints]
  have hstart : SameGraph st { st with physHint := fun _ => -1, copyPartner := fun _ => -1 } :=
    ⟨rfl, rfl, rfl, rfl, rfl, fun _ => .refl _, fun _ => ⟨rfl, rfl⟩⟩
  generalize hs : ({ st with physHint := fun _ => -1, copyPartner := fun _ => -1 } : ColorState) = s at hstart
  have hvregs : s.vregs = st.vregs := by rw [← hs]
  clear hs
  generalize fn.insns = insns
  induction insns generalizing s with
  | nil => exact ⟨hstart, hvregs⟩
  | cons i rest ih =>
    rw [foldl_cons]
    split
    · exact ih s hstart hvregs
    · obtain ⟨h₁, hv₁⟩ := hintPhys_same fn s i.a i.dst
      obtain ⟨h₂, hv₂⟩ := hintPhys_same fn (s.hintPhys fn i.a i.dst) i.dst i.a
      have hsame := hstart.trans (h₁.trans h₂)
      have hvregs' := hv₂.trans (hv₁.trans hvregs)
      split
      · refine ih _ (hsame.trans ⟨rfl, rfl, rfl, rfl, rfl, fun _ => .refl _, fun _ => ⟨rfl, rfl⟩⟩) ?_
        exact hvregs'
      · exact ih _ hsame hvregs'

/-! ## Order -/

/-- A register that is still in the graph. -/
def Pending (st : ColorState) (v : ℤ) : Prop := st.colorable v = true ∧ st.removed v = false

/-- `mir_color_pick` picks a register that is still in the graph. -/
theorem colorPick_pending {low : Bool} (h : st.colorPick fn low = some v) : fn.valid v = true ∧ Pending st v := by
  have hfold : ∀ (l : List ℤ) (pick : Option ℤ), (∀ w ∈ l, fn.valid w = true) →
      (∀ w, pick = some w → fn.valid w = true ∧ Pending st w) →
      ∀ w, l.foldl (st.pickStep low) pick = some w → fn.valid w = true ∧ Pending st w := by
    intro l
    induction l with
    | nil => exact fun pick _ hpick => hpick
    | cons x rest ih =>
      intro pick hl hpick
      refine ih _ (fun w hw => hl w (.tail _ hw)) ?_
      have hx := hl x (mem_cons_self ..)
      intro w hw
      unfold pickStep at hw
      split at hw
      · exact hpick w hw
      rename_i hgood
      have hpending : Pending st x := by
        simpa [Pending] using hgood
      split at hw
      · exact hpick w hw
      split at hw
      · cases hw
        exact ⟨hx, hpending⟩
      · split at hw
        · cases hw
          exact ⟨hx, hpending⟩
        · exact hpick w hw
  exact hfold fn.vregIds none (fun w hw => mem_vregIds.mp hw) (fun w hw => by cases hw) v h

/-- With any degree allowed, a register that is still in the graph is found. -/
theorem colorPick_isSome (hv : fn.valid v = true) (h : Pending st v) : (st.colorPick fn false).isSome := by
  have hstep : ∀ (l : List ℤ) (pick : Option ℤ), (pick.isSome ∨ v ∈ l) →
      (l.foldl (st.pickStep false) pick).isSome := by
    intro l
    induction l with
    | nil => exact fun pick h => h.elim id fun h => absurd h not_mem_nil
    | cons x rest ih =>
      intro pick hpick
      refine ih _ ?_
      unfold pickStep
      rcases hpick with hpick | hmem
      · left
        split
        · exact hpick
        split
        · exact hpick
        split
        · rfl
        · split
          · rfl
          · exact hpick
      rcases mem_cons.mp hmem with rfl | hmem
      · left
        rw [if_neg (by simp [h.1, h.2]), if_neg (by simp)]
        split
        · rfl
        · split <;> rfl
      · exact .inr hmem
  exact hstep fn.vregIds none (.inr (mem_vregIds.mpr hv))

/-- Taking a register out of the graph changes degrees and metrics besides. -/
theorem remove_rest (fn : MirFunction) (st : ColorState) (pick : ℤ) : ∃ degree metric, st.remove fn pick = { st with
      removed := update st.removed pick true, degree := degree, metric := metric } := by
  have hfold : ∀ (l : List ℤ) (s : ColorState), ∃ degree metric, l.foldl (fun st b =>
      if st.removed b then st
      else
        let st := { st with degree := update st.degree b (st.degree b - 1) }
        { st with metric := update st.metric b (st.colorMetric b) }) s
      = { s with degree := degree, metric := metric } := by
    intro l
    induction l with
    | nil => exact fun s => ⟨s.degree, s.metric, rfl⟩
    | cons b rest ih =>
      intro s
      rw [foldl_cons]
      split
      · exact ih s
      · exact ih _
  exact hfold _ _

/-- The registers that are still in the graph. -/
def pendings (fn : MirFunction) (st : ColorState) : Finset ℤ :=
  fn.vregIds.toFinset.filter fun v => st.colorable v = true ∧ st.removed v = false

/-- The stack lists the registers taken out so far. -/
structure Stacked (fn : MirFunction) (st : ColorState) (stack : List ℤ) : Prop where
  valid : ∀ v, st.colorable v = true → fn.valid v = true
  mem : ∀ v, v ∈ stack ↔ st.colorable v = true ∧ st.removed v = true

/-- The loop of `mir_color_order_vregs` lists the registers to be coloured. -/
theorem orderLoop_spec (remaining : ℕ) (st : ColorState) (stack : List ℤ)
    (h : Stacked fn st stack) (hcard : (st.pendings fn).card ≤ remaining) :
    (∃ removed degree metric, (orderLoop fn remaining st stack).1
        = { st with removed := removed, degree := degree, metric := metric }) ∧
      ∀ v, v ∈ (orderLoop fn remaining st stack).2 ↔ st.colorable v = true := by
  -- nothing pending: the stack has everything
  have hdone : ∀ {st : ColorState} {stack : List ℤ}, Stacked fn st stack →
      (∀ v, ¬ (fn.valid v = true ∧ Pending st v)) → ∀ v, v ∈ stack ↔ st.colorable v = true := by
    intro st stack h hnone v
    rw [h.mem]
    refine ⟨fun hv => hv.1, fun hv => ⟨hv, ?_⟩⟩
    by_contra hrem
    exact hnone v ⟨h.valid v hv, hv, by simpa using hrem⟩
  induction remaining generalizing st stack with
  | zero =>
    refine ⟨⟨st.removed, st.degree, st.metric, rfl⟩, hdone h fun v hv => ?_⟩
    have hmem : v ∈ st.pendings fn := by
      simp only [pendings, Finset.mem_filter, List.mem_toFinset, mem_vregIds]
      exact ⟨hv.1, hv.2⟩
    rw [Finset.card_eq_zero.mp (Nat.le_zero.mp hcard)] at hmem
    exact absurd hmem (Finset.notMem_empty v)
  | succ remaining ih =>
    rw [orderLoop]
    split
    · rename_i hnone
      refine ⟨⟨st.removed, st.degree, st.metric, rfl⟩, hdone h fun v hv => ?_⟩
      have hsome := colorPick_isSome hv.1 hv.2
      rw [(or_eq_none_iff.mp hnone).2] at hsome
      cases hsome
    · rename_i pick hpick
      have hpending : fn.valid pick = true ∧ Pending st pick := by
        rcases or_eq_some_iff.mp hpick with hp | ⟨-, hp⟩
        · exact colorPick_pending hp
        · exact colorPick_pending hp
      obtain ⟨hvalid, hcol, hrem⟩ := hpending
      obtain ⟨degree, metric, heq⟩ := remove_rest fn st pick
      rw [heq]
      have hstacked : Stacked fn { st with
          removed := update st.removed pick true, degree := degree, metric := metric }
          (pick :: stack) := by
        refine ⟨h.valid, fun v => ?_⟩
        rw [mem_cons, h.mem]
        by_cases hv : v = pick
        · subst hv
          simp [hcol]
        · simp [hv]
      have hpend : ColorState.pendings fn { st with
          removed := update st.removed pick true, degree := degree, metric := metric }
          = (st.pendings fn).erase pick := by
        ext v
        simp only [pendings, Finset.mem_filter, Finset.mem_erase, update_apply]
        by_cases hv : v = pick
        · simp [hv]
        · simp [hv]
      have hmem : pick ∈ st.pendings fn := by
        simp only [pendings, Finset.mem_filter, List.mem_toFinset, mem_vregIds]
        exact ⟨hvalid, hcol, hrem⟩
      obtain ⟨⟨removed, degree', metric', hrest⟩, hall⟩ := ih _ _ hstacked (by
        rw [hpend, Finset.card_erase_of_mem hmem]
        omega)
      exact ⟨⟨removed, degree', metric', hrest⟩, hall⟩

/-- No more registers are pending than are to be colored. -/
theorem countP_colorable (fn : MirFunction) (st : ColorState) :
    (st.pendings fn).card ≤ fn.vregIds.countP fun v => st.colorable v := by
  rw [countP_eq_length_filter]
  refine (Finset.card_le_card fun v hv => ?_).trans (toFinset_card_le _)
  simp only [pendings, Finset.mem_filter, List.mem_toFinset] at hv
  rw [List.mem_toFinset, mem_filter]
  exact ⟨hv.1, hv.2.1⟩

/-- `mir_color_order_vregs` lists the registers to be coloured. -/
theorem orderVregs_spec (hvalid : ∀ v, st.colorable v = true → fn.valid v = true)
    (hkept : ∀ v, st.colorable v = true → st.removed v = false) :
    (∃ removed degree metric, (st.orderVregs fn).1
        = { st with removed := removed, degree := degree, metric := metric }) ∧
      ∀ v, v ∈ (st.orderVregs fn).2 ↔ st.colorable v = true := by
  have hstacked : Stacked fn { st with
      metric := fun v => if st.colorable v then st.colorMetric v else st.metric v } [] := by
    refine ⟨hvalid, fun v => ⟨fun h => absurd h not_mem_nil, fun h => ?_⟩⟩
    rw [hkept v h.1] at h
    cases h.2
  obtain ⟨⟨removed, degree, metric, heq⟩, hall⟩ :=
    orderLoop_spec (fn.vregIds.countP fun v => st.colorable v) _ _ hstacked (countP_colorable fn st)
  exact ⟨⟨removed, degree, metric, heq⟩, hall⟩

/-! ## Choosing a register -/

/-- Preferring leaves some register, if there is one. -/
theorem preferred_spec (st : ColorState) (v : ℤ) {avail : Finset ℤ} (h : avail ≠ ∅) :
    st.preferred v avail ⊆ avail ∧ st.preferred v avail ≠ ∅ := by
  simp only [preferred]
  split
  · rename_i hcond
    exact ⟨Finset.erase_subset _ _, hcond.2.2⟩
  · exact ⟨Finset.Subset.refl _, h⟩

/-- The chosen register is free. -/
theorem chooseReg_mem (st : ColorState) (v : ℤ) {avail : Finset ℤ} (h : avail ≠ ∅) (hsub : ∀ r ∈ avail, r ∈ sixteen) :
    st.chooseReg v avail ∈ avail := by
  obtain ⟨hpref, hne⟩ := st.preferred_spec v h
  simp only [chooseReg]
  split
  · rename_i hcond
    exact hpref hcond.2.2
  split
  · rename_i hcond
    exact hpref hcond.2
  split
  · rename_i hcond
    exact hpref hcond.2.2.2
  -- no hint: some register of the preferred ones is saved or is not
  obtain ⟨r, hr⟩ := Finset.nonempty_iff_ne_empty.mpr hne
  have hfound : ∃ r', (sixteen.find? fun r => r ∈ st.preferred v avail ∧
      regIsSaved (st.vregs v) r = false).or (sixteen.find? fun r => r ∈ st.preferred v avail ∧
      regIsSaved (st.vregs v) r = true) = some r' := by
    rw [← isSome_iff_exists, isSome_or, Bool.or_eq_true, find?_isSome, find?_isSome]
    cases hsaved : regIsSaved (st.vregs v) r with
    | false => exact .inl ⟨r, hsub r (hpref hr), by simp [hr, hsaved]⟩
    | true => exact .inr ⟨r, hsub r (hpref hr), by simp [hr, hsaved]⟩
  obtain ⟨r', hr'⟩ := hfound
  rw [hr', getD_some]
  rcases or_eq_some_iff.mp hr' with hf | ⟨-, hf⟩
  · have hfree := find?_some hf
    simp only [decide_eq_true_eq] at hfree
    exact hpref hfree.1
  · have hfree := find?_some hf
    simp only [decide_eq_true_eq] at hfree
    exact hpref hfree.1

/-! ## Colouring -/

/-- The bytes of the slot a register owns in the frame. -/
def slotBytes (vr : Vreg) : ℤ := if vr.addressTaken then (homeBytesFor vr 0).1 else spillBytes vr

theorem slotBytes_eq {a b : Vreg} (h : a.SameShape b) : slotBytes a = slotBytes b := by
  rw [slotBytes, slotBytes, homeBytesFor, homeBytesFor, spillBytes, spillBytes, h.addressTaken,
    h.homeBytes, h.homeGranule, h.width]

/-- The registers in `done` have their colours: a register of their mask that no neighbour in `done`
has, or a slot. The slots and the homes of the registers outside the graph do not overlap. -/
structure Assigned (home : ℤ → Prop) (st : ColorState) (done : ℤ → Prop) (base : ℤ)
    (vregs : ℤ → Vreg) (next : ℤ) : Prop where
  sub : ∀ v, done v → st.colorable v = true
  shape : ∀ v, (vregs v).SameShape (st.vregs v)
  others : ∀ v, st.colorable v = false → vregs v = st.vregs v
  color : ∀ v, done v → (vregs v).inRegister = true → (vregs v).phys ∈ st.mask v
  apart : ∀ a b, done a → done b → b ∈ st.inter a → (vregs a).inRegister = true →
    (vregs b).inRegister = true → (vregs a).phys ≠ (vregs b).phys
  layout : Layout (fun v => home v ∨ (done v ∧ (vregs v).inRegister = false))
    (fun v => (vregs v).spillOffset - slotBytes (vregs v)) (fun v => (vregs v).spillOffset) base next

variable {home : ℤ → Prop} {done : ℤ → Prop} {base next : ℤ} {vregs : ℤ → Vreg}

/-- What is asked of the state whose registers are coloured. -/
structure Colorable (fn : MirFunction) (home : ℤ → Prop) (st : ColorState) : Prop where
  ok : GraphOk fn st
  sixteen : ∀ v, st.colorable v = true → ∀ r ∈ st.mask v, r ∈ sixteen
  plain : ∀ v, st.colorable v = true → (st.vregs v).addressTaken = false
  home : ∀ v, home v → st.colorable v = false

section

variable (hst : Colorable fn home st) (h : Assigned home st done base vregs next) (hv : st.colorable v = true)
include hst h hv

/-- One register in a machine register. -/
theorem Assigned.inRegister {phys : ℤ} (hmask : phys ∈ st.mask v)
    (hfree : ∀ b ∈ st.inter v, done b → (vregs b).inRegister = true → (vregs b).phys ≠ phys) {vr : Vreg}
    (hshape : vr.SameShape (vregs v)) (hreg : vr.inRegister = true) (hphys : vr.phys = phys) :
    Assigned home st (fun w => w = v ∨ done w) base (update vregs v vr) next := by
  -- a register with a home in the frame is not colourable, so it is not the one assigned here
  have hhome : ∀ w, home w → w ≠ v := by
    rintro w hw rfl
    rw [hst.home w hw] at hv
    cases hv
  refine ⟨?_, fun w => ?_, fun w hw => ?_, fun w hw => ?_, fun a b ha hb hedge => ?_, ?_⟩
  · rintro w (rfl | hw)
    · exact hv
    · exact h.sub w hw
  · rw [update_apply]
    split
    · rename_i hwv
      rw [hwv]
      exact hshape.trans (h.shape v)
    · exact h.shape w
  · rw [update_of_ne]
    · exact h.others w hw
    · rintro rfl
      rw [hv] at hw
      cases hw
  · rw [update_apply]
    split
    · rename_i hwv
      intro _
      rw [hwv, hphys]
      exact hmask
    · rename_i hwv
      exact h.color w (hw.resolve_left hwv)
  -- an edge between two assigned registers; one of the ends may be the new one
  · rw [update_apply, update_apply]
    split
    · rename_i hav
      subst hav
      have hne : b ≠ a := by
        rintro rfl
        exact hst.ok.irrefl b hedge
      rw [if_neg hne]
      intro _ hregb
      rw [hphys]
      exact (hfree b hedge (hb.resolve_left hne) hregb).symm
    · rename_i hav
      split
      · rename_i hbv
        subst hbv
        intro hrega _
        rw [hphys]
        exact hfree a (hst.ok.symm a b hedge) (ha.resolve_left hav) hrega
      · rename_i hbv
        exact h.apart a b (ha.resolve_left hav) (hb.resolve_left hbv) hedge
  · refine h.layout.mono fun w hw => ?_
    have hwv : w ≠ v := by
      rcases hw with hw | ⟨-, hw⟩
      · exact hhome w hw
      · rintro rfl
        rw [update_self, hreg] at hw
        cases hw
    simp only [update_of_ne hwv] at hw ⊢
    refine ⟨hw.imp id fun hw => ⟨hw.1.resolve_left hwv, hw.2⟩, trivial, trivial⟩

/-- One register in a new slot. -/
theorem Assigned.spilled {vr : Vreg} (hshape : vr.SameShape (vregs v)) (hreg : vr.inRegister = false)
    (hslot : vr.spillOffset = next + spillBytes (vregs v)) :
    Assigned home st (fun w => w = v ∨ done w) base (update vregs v vr) (next + spillBytes (vregs v)) := by
  have hplain : vr.addressTaken = false := by
    rw [hshape.addressTaken, (h.shape v).addressTaken]
    exact hst.plain v hv
  have hbytes : slotBytes vr = spillBytes (vregs v) := by
    rw [slotBytes, hplain, spillBytes, spillBytes, hshape.width]
    simp
  have hpos : 0 ≤ spillBytes (vregs v) := by
    rw [spillBytes]
    split <;> decide
  refine ⟨?_, fun w => ?_, fun w hw => ?_, fun w hw => ?_, fun a b ha hb hedge => ?_, ?_⟩
  · rintro w (rfl | hw)
    · exact hv
    · exact h.sub w hw
  · rw [update_apply]
    split
    · rename_i hwv
      rw [hwv]
      exact hshape.trans (h.shape v)
    · exact h.shape w
  · rw [update_of_ne]
    · exact h.others w hw
    · rintro rfl
      rw [hv] at hw
      cases hw
  · rw [update_apply]
    split
    · intro hregw
      rw [hreg] at hregw
      cases hregw
    · rename_i hwv
      exact h.color w (hw.resolve_left hwv)
  -- a spilled register holds no physical one, so an edge to it asks nothing
  · rw [update_apply, update_apply]
    split
    · intro hrega
      rw [hreg] at hrega
      cases hrega
    · rename_i hav
      split
      · intro _ hregb
        rw [hreg] at hregb
        cases hregb
      · rename_i hbv
        exact h.apart a b (ha.resolve_left hav) (hb.resolve_left hbv) hedge
  · refine h.layout.push (k := v) (fun w hw => ?_) ?_ ?_ (by omega)
    · by_cases hwv : w = v
      · exact .inl hwv
      · simp only [update_of_ne hwv] at hw ⊢
        exact .inr ⟨hwv, hw.imp id fun hw => ⟨hw.1.resolve_left hwv, hw.2⟩, trivial, trivial⟩
    · simp only [update_self, hslot, hbytes]
      omega
    · simp only [update_self, hslot]
      omega

/-- `mir_color_assign` of one register. -/
theorem Assigned.assignOne : ∃ vregs' next', ColorState.assignOne ({ st with vregs := vregs }, next) v
        = ({ st with vregs := vregs' }, next') ∧
      Assigned home st (fun w => w = v ∨ done w) base vregs' next' := by
  simp only [ColorState.assignOne]
  split
  · exact ⟨_, _, rfl, h.spilled hst hv ⟨rfl, rfl, rfl, rfl, rfl⟩ rfl rfl⟩
  · rename_i havail
    have hmem := ColorState.chooseReg_mem { st with vregs := vregs } v havail
      fun r hr => hst.sixteen v hv r (Finset.mem_sdiff.mp hr).1
    rw [Finset.mem_sdiff] at hmem
    refine ⟨_, _, rfl, h.inRegister hst hv hmem.1 (fun b hb _ hreg heq => hmem.2 ?_)
      ⟨rfl, rfl, rfl, rfl, rfl⟩ rfl rfl⟩
    rw [← heq]
    exact Finset.mem_image.mpr ⟨b, Finset.mem_filter.mpr ⟨hb, hreg⟩, rfl⟩

end

/-- `mir_color_assign`. -/
theorem Assigned.assign (hst : Colorable fn home st) (l : List ℤ)
    (hl : ∀ v ∈ l, st.colorable v = true) (h : Assigned home st done base vregs next) :
    ∃ vregs' next', l.foldl ColorState.assignOne ({ st with vregs := vregs }, next)
        = ({ st with vregs := vregs' }, next') ∧
      Assigned home st (fun w => w ∈ l ∨ done w) base vregs' next' := by
  induction l generalizing done vregs next with
  | nil =>
    refine ⟨vregs, next, rfl, ?_⟩
    simpa using h
  | cons v rest ih =>
    obtain ⟨vregs', next', heq, hone⟩ := h.assignOne hst (hl v (mem_cons_self ..))
    obtain ⟨vregs'', next'', heq', hall⟩ :=
      ih (fun w hw => hl w (.tail _ hw)) hone
    refine ⟨vregs'', next'', by rw [foldl_cons, heq, heq'], ?_⟩
    have hdone : (fun w => w ∈ v :: rest ∨ done w) = fun w => w ∈ rest ∨ w = v ∨ done w := by
      funext w
      rw [mem_cons]
      exact propext (by tauto)
    rw [hdone]
    exact hall

/-! ## Recolouring -/

/-- One move of `mir_color_coalesce_moves` keeps the colours. -/
theorem Assigned.recolor {facts : RaFacts} {i : ℕ} (hst : Colorable fn home st)
    (h : Assigned home st (fun v => st.colorable v = true) base vregs next) :
    ∃ vregs', (ColorState.recolor fn facts { st with vregs := vregs } i).1 = { st with vregs := vregs' } ∧
      Assigned home st (fun v => st.colorable v = true) base vregs' next := by
  simp only [ColorState.recolor]
  split
  · rename_i hmove
    simp only [moveIsCoalescable, decide_eq_true_eq] at hmove
    obtain ⟨-, -, -, -, hd, hs, hdreg, hsreg, -, -, -, -, hmask, hfree⟩ := hmove
    have hshape : Vreg.SameShape { vregs (fn.insn i).dst.vreg with phys := (vregs (fn.insn i).a.vreg).phys }
        (vregs (fn.insn i).dst.vreg) := ⟨rfl, rfl, rfl, rfl, rfl⟩
    have hnone : ∀ b ∈ st.inter (fn.insn i).dst.vreg, st.colorable b = true →
        (vregs b).inRegister = true → (vregs b).phys ≠ (vregs (fn.insn i).a.vreg).phys := by
      intro b hb _ hreg heq
      refine hfree ?_
      rw [← heq]
      exact Finset.mem_image.mpr ⟨b, Finset.mem_filter.mpr ⟨hb, hreg⟩, rfl⟩
    have hdone : (fun w => w = (fn.insn i).dst.vreg ∨ st.colorable w = true) = fun w => st.colorable w = true := by
      funext w
      refine propext ⟨?_, .inr⟩
      rintro (rfl | hw)
      · exact hd
      · exact hw
    refine ⟨_, rfl, ?_⟩
    rw [← hdone]
    exact h.inRegister hst hd hmask hnone hshape hdreg rfl
  · exact ⟨vregs, rfl, h⟩

/-- `mir_color_coalesce_moves` keeps the colours. -/
theorem Assigned.coalesceMoves (facts : RaFacts) (hst : Colorable fn home st) (rounds : ℕ)
    (h : Assigned home st (fun v => st.colorable v = true) base vregs next) :
    ∃ vregs', ColorState.coalesceMoves fn facts rounds { st with vregs := vregs } = { st with vregs := vregs' } ∧
      Assigned home st (fun v => st.colorable v = true) base vregs' next := by
  let Inv : ColorState → Prop := fun s => ∃ vregs, s = { st with vregs := vregs } ∧
    Assigned home st (fun v => st.colorable v = true) base vregs next
  have hinv : ∀ s, ∀ i ∈ range fn.insnCount, Inv s → Inv (s.recolor fn facts i).1 := by
    rintro _ i - ⟨vregs, rfl, hs⟩
    exact hs.recolor hst
  have hrounds : ∀ s, Inv s → Inv (ColorState.coalesceMoves fn facts rounds s) := by
    induction rounds with
    | zero => exact fun s hs => hs
    | succ rounds ih =>
      intro s hs
      rw [ColorState.coalesceMoves]
      have hsweep := sweep_inv hinv hs
      dsimp only
      split
      · exact ih _ hsweep
      · exact hsweep
  exact hrounds _ ⟨vregs, rfl, h⟩

end ColorState

end Mettle.Mir

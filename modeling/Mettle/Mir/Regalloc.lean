import Mettle.Mir.ColorSound
import Mettle.Mir.VerifyExact

/-!
# The allocated function

`mir_regalloc_color` as a whole: what the function it returns computes. Its instructions are those of
the input with the registers renamed to their representatives and the merged copies dropped; it runs
over the locations of its table.
-/

namespace Mettle.Mir

open Mettle.Lib MirFunction ColorState

variable {t : Target} {fn out : MirFunction} {rep : ℤ → ℤ}

/-! ## Running the allocated function -/

/-- A meaning of the instructions in which `MIR_NOP` does nothing and `MIR_MOV` between registers of one
class copies. -/
structure MoveSemantics (fn : MirFunction) (Val Ext : Type*) extends Semantics fn Val Ext where
  nop : ∀ i ρ e, (fn.insn i).op = .nop →
    (exec i ρ e).2 = (e, if i + 1 < fn.insnCount then some (i + 1) else none)
  copy : ∀ i ρ e, (fn.insn i).isCopy = true →
    (fn.vreg (fn.insn i).dst.vreg).rclass = (fn.vreg (fn.insn i).a.vreg).rclass →
    exec i ρ e = (ρ (fn.insn i).a.vreg, e, if i + 1 < fn.insnCount then some (i + 1) else none)

variable {Val Ext : Type*} (sem : MoveSemantics fn Val Ext)

/-- Runs of the allocated function `out` over its locations. An instruction reads the registers its
operands name now, sets the location of its result and may leave anything in what it overwrites; a
`MIR_NOP` is skipped. -/
inductive AllocRun (out : MirFunction) (rep : ℤ → ℤ) (sysv : Bool) (σ₀ : Loc → Val) (e₀ : Ext) :
    ℕ → ℕ → (Loc → Val) → Ext → Prop
  | start : AllocRun out rep sysv σ₀ e₀ 0 0 σ₀ e₀
  | skip {n i : ℕ} {σ : Loc → Val} {e : Ext} :
    AllocRun out rep sysv σ₀ e₀ n i σ e → (out.insn i).op = .nop → i + 1 < out.insnCount →
    AllocRun out rep sysv σ₀ e₀ (n + 1) (i + 1) σ e
  | step {n i j : ℕ} {σ σ' : Loc → Val} {e : Ext} :
    AllocRun out rep sysv σ₀ e₀ n i σ e → (out.insn i).op ≠ .nop →
    (sem.exec i (fun v => σ (out.locOf (rep v))) e).2.2 = some j →
    (∀ d ∈ out.defs i, σ' (out.locOf d) = (sem.exec i (fun v => σ (out.locOf (rep v))) e).1) →
    (∀ l, (∀ d ∈ out.defs i, out.locOf d ≠ l) → (out.insn i).overwrites sysv l = false →
      σ' l = σ l) →
    AllocRun out rep sysv σ₀ e₀ (n + 1) j σ' (sem.exec i (fun v => σ (out.locOf (rep v))) e).2.1

/-- `out` is `fn` with every register renamed by `rep` and some copies between registers of one name
dropped, and a renamed register keeps its location. -/
structure RenamedFunction (fn out : MirFunction) (rep : ℤ → ℤ) : Prop where
  insnCount : out.insnCount = fn.insnCount
  valid : ∀ v, out.valid v = fn.valid v
  renamed : ∀ i, Renamed rep (fn.insn i) (out.insn i)
  repValid : ∀ v, fn.valid (rep v) = fn.valid v
  other : ∀ v, fn.valid v = false → rep v = v
  rclass : ∀ v, fn.valid v = true → (fn.vreg (rep v)).rclass = (fn.vreg v).rclass
  loc : ∀ v, fn.valid v = true → out.locOf (rep v) = out.locOf v

variable {sem} {ρ₀ ρ : ℤ → Val} {σ₀ σ σ' : Loc → Val} {e₀ e e' : Ext} {sysv : Bool} {n i j : ℕ}
  {W : Finset ℤ}

variable {v base : ℤ} {vregs : ℤ → Vreg}

theorem mem_defs : v ∈ fn.defs i ↔ fn.valid v = true ∧ v = (fn.insn i).defs := by
  rw [MirFunction.defs]
  split
  · rename_i hvalid
    rw [Finset.mem_singleton]
    exact ⟨fun h => ⟨h ▸ hvalid, h⟩, And.right⟩
  · rename_i hvalid
    refine ⟨fun h => absurd h (Finset.notMem_empty _), ?_⟩
    rintro ⟨hv, rfl⟩
    exact absurd hv hvalid

/-- The results of a kept instruction. -/
theorem RenamedFunction.defs (h : RenamedFunction fn out rep)
    (hdefs : (out.insn i).defs = rep (fn.insn i).defs) : out.defs i = (fn.defs i).image rep := by
  rw [MirFunction.defs, MirFunction.defs, hdefs, h.valid, h.repValid]
  split <;> simp

/-- A kept instruction reads the same values through either name. -/
theorem RenamedFunction.exec (h : RenamedFunction fn out rep) (i : ℕ) (σ : Loc → Val) (e : Ext) :
    sem.exec i (fun v => σ (out.locOf (rep v))) e = sem.exec i (fun v => σ (out.locOf v)) e := by
  refine sem.reads i _ _ e fun v hv => ?_
  simp only [MirFunction.uses, List.mem_toFinset, List.mem_filter] at hv
  rw [h.loc v hv.2]

/-- The ends of a dropped copy have one class and one location. -/
theorem RenamedFunction.dropped (h : RenamedFunction fn out rep) {d s : ℤ} (hds : rep d = rep s) :
    (fn.vreg d).rclass = (fn.vreg s).rclass ∧ (fn.valid d = true → out.locOf d = out.locOf s) := by
  have hvalid : fn.valid d = fn.valid s := by rw [← h.repValid d, hds, h.repValid]
  cases hd : fn.valid d with
  | false =>
    rw [h.other d hd, h.other s (hvalid ▸ hd)] at hds
    subst hds
    exact ⟨rfl, nofun⟩
  | true =>
    have hs : fn.valid s = true := hvalid ▸ hd
    refine ⟨by rw [← h.rclass d hd, hds, h.rclass s hs], fun _ => ?_⟩
    rw [← h.loc d hd, hds, h.loc s hs]

/-- A copy is a move between registers. -/
theorem Inst.isCopy_iff {i : Inst} : i.isCopy = true ↔ i.op = .mov ∧ i.dst.kind = .vreg ∧ i.a.kind = .vreg := by
  simp [Inst.isCopy]

/-- A run of the allocated function is a run of the input over the same locations. -/
theorem AllocRun.locRun (h : RenamedFunction fn out rep) (hrun : AllocRun sem out rep sysv σ₀ e₀ n i σ e) :
    LocRun sem.toSemantics sysv out.locOf σ₀ e₀ n i σ e := by
  -- on the run of the allocated function
  induction hrun with
  | start => exact .start
  | @skip n i σ e _ hnop hlt ih =>
    rw [h.insnCount] at hlt
    cases h.renamed i with
    | kept hop huses hdefs hover =>
      have hnop' : (fn.insn i).op = .nop := hop ▸ hnop
      have hnone : ∀ d, d ∉ fn.defs i := by
        intro d hd
        obtain ⟨hvalid, rfl⟩ := mem_defs.mp hd
        simp [Inst.defs, hnop', MirFunction.valid] at hvalid
      have hexec := sem.nop i (fun v => σ (out.locOf v)) e hnop'
      rw [if_pos hlt] at hexec
      have hstep := ih.step (j := i + 1) (by rw [hexec]) (fun d hd => absurd hd (hnone d)) (fun l _ _ => rfl)
      rw [hexec] at hstep
      exact hstep
    -- a coalesced copy moves a location to itself
    | dropped hcopy hsame _ =>
      obtain ⟨hclass, hloc⟩ := h.dropped hsame
      have hexec := sem.copy i (fun v => σ (out.locOf v)) e hcopy hclass
      rw [if_pos hlt] at hexec
      have hstep := ih.step (j := i + 1) (by rw [hexec]) (fun d hd => ?_) (fun l _ _ => rfl)
      · rw [hexec] at hstep
        exact hstep
      · obtain ⟨hop, hkind, -⟩ := Inst.isCopy_iff.mp hcopy
        obtain ⟨hvalid, rfl⟩ := mem_defs.mp hd
        have hdst : (fn.insn i).defs = (fn.insn i).dst.vreg := by simp [Inst.defs, hop, hkind]
        rw [hdst] at hvalid ⊢
        rw [hexec, hloc hvalid]
  | @step n i j σ σ' e _ hop hj hdef hrest ih =>
    rw [h.exec] at hj hdef ⊢
    cases h.renamed i with
    | dropped _ _ hnop => exact absurd hnop hop
    | kept _ huses hdefs hover =>
      have hresults := h.defs hdefs
      have hvalid : ∀ d ∈ fn.defs i, fn.valid d = true := fun d hd => (mem_defs.mp hd).1
      refine ih.step hj (fun d hd => ?_) (fun l hl hkept => hrest l (fun d hd => ?_) ?_)
      · rw [← h.loc d (hvalid d hd)]
        exact hdef (rep d) (hresults ▸ Finset.mem_image_of_mem rep hd)
      · rw [hresults] at hd
        obtain ⟨d', hd', rfl⟩ := Finset.mem_image.mp hd
        rw [h.loc d' (hvalid d' hd')]
        exact hl d' hd'
      · rw [hover]
        exact hkept

/-- The allocated function can take the step its input takes. -/
theorem AllocRun.exists_step (h : RenamedFunction fn out rep) (hrun : AllocRun sem out rep sysv σ₀ e₀ n i σ e)
    (hj : (sem.exec i (fun v => σ (out.locOf v)) e).2.2 = some j) :
    ∃ σ', AllocRun sem out rep sysv σ₀ e₀ (n + 1) j σ' (sem.exec i (fun v => σ (out.locOf v)) e).2.1 := by
  by_cases hop : (out.insn i).op = .nop
  · have hnext : (sem.exec i (fun v => σ (out.locOf v)) e).2
        = (e, if i + 1 < fn.insnCount then some (i + 1) else none) := by
      cases h.renamed i with
      | kept hsame => exact sem.nop i _ e (hsame ▸ hop)
      | dropped hcopy hsame => rw [sem.copy i _ e hcopy (h.dropped hsame).1]
    rw [hnext] at hj ⊢
    split at hj
    · rename_i hlt
      cases hj
      exact ⟨σ, hrun.skip hop (h.insnCount ▸ hlt)⟩
    · cases hj
  · rw [← h.exec] at hj ⊢
    let τ : Loc → Val := fun l => if ∃ d ∈ out.defs i, out.locOf d = l then
      (sem.exec i (fun v => σ (out.locOf (rep v))) e).1 else σ l
    refine ⟨τ, hrun.step hop hj (fun d hd => if_pos ⟨d, hd, rfl⟩) fun l hl _ => if_neg ?_⟩
    rintro ⟨d, hd, heq⟩
    exact hl d hd heq

/-- Every run over virtual registers is a run of the allocated function. -/
theorem KeepsLive.exists_allocRun (h : RenamedFunction fn out rep) (hkeeps : KeepsLive fn sysv out.locOf)
    (hentry : ∀ v ∈ fn.entryDefs, LiveAt fn 0 v → σ₀ (out.locOf v) = ρ₀ v)
    (hv : VregRun sem.toSemantics ρ₀ e₀ n i ρ e W) :
    ∃ σ, AllocRun sem out rep sysv σ₀ e₀ n i σ e := by
  induction hv with
  | start => exact ⟨σ₀, .start⟩
  | @step n i j ρ ρ' e W hrun huses hj hdef hrest ih =>
    obtain ⟨σ, hσ⟩ := ih
    obtain ⟨-, -, hagree⟩ := hkeeps.simulates hentry hrun (hσ.locRun h)
    have hexec : sem.exec i (fun v => σ (out.locOf v)) e = sem.exec i ρ e :=
      sem.reads i _ _ e fun v hv => hagree v (huses hv) (.read hv)
    rw [← hexec] at hj ⊢
    exact hσ.exists_step h hj

/-! ## The allocator -/

/-- The outcome depends on the valid registers only. -/
theorem Outcome.congr {vregs' : ℤ → Vreg} (h : Outcome t fn rep base vregs)
    (heq : ∀ v, fn.valid v = true → vregs' v = vregs v) : Outcome t fn rep base vregs' := by
  obtain ⟨next, hlayout⟩ := h.layout
  refine ⟨fun v hv => ?_, fun v hv => ?_, fun v hv => ?_, fun v hv => ?_, h.valid, h.rclass, h.bytes,
    h.other, h.plain, h.idem, fun v hv => ?_, fun v hv => ?_, fun d v hconf hd hv => ?_, next,
    hlayout.mono fun v hv => ?_⟩
  · rw [heq v hv]
    exact h.shape v hv
  · rw [heq v hv, heq _ (h.valid v hv)]
    exact h.inRegister v hv
  · rw [heq v hv, heq _ (h.valid v hv)]
    exact h.phys v hv
  · rw [heq v hv, heq _ (h.valid v hv)]
    exact h.spillOffset v hv
  · rw [heq v hv]
    exact h.home v hv
  · rw [heq v hv.valid]
    exact h.safe v hv
  · rw [heq d hd.valid, heq v hv.valid]
    exact h.apart d v hconf hd hv
  · rw [heq v hv.1.valid] at hv ⊢
    exact ⟨hv, rfl, rfl⟩

/-- Equal places are equal locations. -/
theorem locOf_congr {w : ℤ} (hreg : (fn.vreg v).inRegister = (fn.vreg w).inRegister)
    (hclass : (fn.vreg v).rclass = (fn.vreg w).rclass) (hphys : (fn.vreg v).phys = (fn.vreg w).phys)
    (hslot : (fn.vreg v).spillOffset = (fn.vreg w).spillOffset) : fn.locOf v = fn.locOf w := by
  rw [locOf, locOf, hreg, hclass, hphys, hslot]

/-- A table of the registers, looked up. -/
theorem getD_vregIds_map (fn : MirFunction) (f : ℤ → Vreg) (hv : fn.valid v = true) :
    (fn.vregIds.map f).getD v.toNat {} = f v := by
  simp only [MirFunction.valid, decide_eq_true_eq] at hv
  obtain ⟨hpos, hlt⟩ := hv
  have hnat : v.toNat < fn.vregCount := by omega
  have hget : fn.vregIds[v.toNat]? = some v := by
    simp [vregIds, List.getElem?_range hnat, hpos]
  rw [List.getD_eq_getElem?_getD, List.getElem?_map, hget]
  rfl

/-- What the allocator returns. -/
theorem mirRegallocColor_outcome (t : Target) (hlabels : LabelsResolve fn)
    (hbt : fn.NoBitTest) (hxmm : XmmWritesDead fn t.sysv) (hwidth : CopiesKeepWidth fn)
    (hinsns : 0 < fn.insnCount) (hvregs : 0 < fn.vregCount) :
    ∃ out rep, mirRegallocColor t fn = some out ∧ RenamedFunction fn out rep ∧
      Outcome t fn rep (preserveSlots fn).1 out.vreg := by
  obtain ⟨cfg, hcfg⟩ := exists_mirCfgBuild hbt hinsns hvregs fun s _ => hlabels.linkBlock hbt s
  obtain ⟨base, preserve, preserveXmm, hslots⟩ : ∃ base preserve preserveXmm,
      preserveSlots fn = (base, preserve, preserveXmm) := ⟨_, _, _, rfl⟩
  obtain ⟨homes, next, hhomes, hhomed, hlayout⟩ := assignHome_spec fn
    (fn.markCrossesCall cfg (fn.computeCoalesceHints (factsBuild fn cfg) (fn.computeLiveness fn.vreg)))
    base
  obtain ⟨hprep, haddr⟩ := prepared hbt hcfg rfl hhomed
  simp only [haddr] at hlayout
  obtain ⟨insns, vregs, rep, frame, hgraph, hlength, hrenamed, houtcome⟩ :=
    colorGraph_outcome hbt hxmm hwidth hcfg (allowRbp fn) hprep hlayout
  have hvalid : ∀ v, fn.valid (rep v) = fn.valid v := by
    intro v
    cases hv : fn.valid v with
    | true => exact houtcome.valid v hv
    | false => rw [houtcome.other v hv, hv]
  rw [mirRegallocColor, hcfg, Option.bind_some, hslots]
  dsimp only
  rw [hhomes]
  rw [hgraph, Option.map_some]
  have htable : ∀ v, fn.valid v = true → (fn.vregIds.map vregs).getD v.toNat {} = vregs v :=
    fun v hv => getD_vregIds_map fn vregs hv
  have hout := houtcome.congr htable
  refine ⟨_, rep, rfl, ⟨hlength, fun v => ?_, hrenamed, hvalid, houtcome.other, houtcome.rclass,
    fun v hv => ?_⟩, hout⟩
  · have hcount : (fn.vregIds.map vregs).length = fn.vregCount := by simp [vregIds]
    exact congrArg (fun n : ℕ => decide (0 ≤ v ∧ v < (n : ℤ))) hcount
  · have hclass := (hout.shape _ (hout.valid v hv)).rclass.trans
      ((hout.rclass v hv).trans (hout.shape v hv).rclass.symm)
    exact locOf_congr (hout.inRegister v hv) hclass (hout.phys v hv) (hout.spillOffset v hv)

/-- An allocation of `fn` is sound: it renames registers, no instruction overwrites the place of another
register that was written before and is still to be read, the registers live at entry have places of
their own, slots of registers that were not merged do not overlap, and the allocated function follows
every run of `fn` and computes its values. -/
structure SoundAllocation (fn out : MirFunction) (rep : ℤ → ℤ) (sysv : Bool) : Prop where
  renamed : RenamedFunction fn out rep
  keepsLive : KeepsLive fn sysv out.locOf
  entry : ∀ v ∈ fn.entryDefs, ∀ w ∈ fn.entryDefs, LiveAt fn 0 v → LiveAt fn 0 w → v ≠ w →
    out.locOf v ≠ out.locOf w
  homes : ∀ v, fn.valid v = true → (fn.vreg v).addressTaken = true →
    rep v = v ∧ (out.vreg v).inRegister = false
  frame : ∀ v, Placed fn v → (out.vreg v).inRegister = false →
    (preserveSlots fn).1 ≤ (out.vreg v).spillOffset - slotBytes (fn.vreg v)
  slots : ∀ v w, Placed fn v → Placed fn w → (out.vreg v).inRegister = false →
    (out.vreg w).inRegister = false → rep v ≠ rep w →
    (out.vreg v).spillOffset ≤ (out.vreg w).spillOffset - slotBytes (fn.vreg w) ∨
      (out.vreg w).spillOffset ≤ (out.vreg v).spillOffset - slotBytes (fn.vreg v)
  runs : ∀ (Val Ext : Type) (sem : MoveSemantics fn Val Ext) (ρ₀ ρ : ℤ → Val) (σ₀ : Loc → Val)
    (e₀ e : Ext) (n i : ℕ) (W : Finset ℤ),
    (∀ v ∈ fn.entryDefs, LiveAt fn 0 v → σ₀ (out.locOf v) = ρ₀ v) →
    VregRun sem.toSemantics ρ₀ e₀ n i ρ e W →
    (∃ σ, AllocRun sem out rep sysv σ₀ e₀ n i σ e) ∧
      ∀ j σ e', AllocRun sem out rep sysv σ₀ e₀ n j σ e' →
        j = i ∧ e' = e ∧ ∀ v ∈ W, LiveAt fn i v → σ (out.locOf v) = ρ v

/-- The places of an outcome keep live registers. -/
theorem Outcome.keepsLive (h : Outcome t fn rep base out.vreg) : KeepsLive fn t.sysv out.locOf := by
  intro i hi v hlive hwritten hdefs
  have hheld : HeldOver fn i v := ⟨hlive, hwritten, hdefs⟩
  refine ⟨fun d hd => h.loc_ne (.write hi hd hheld), ?_⟩
  obtain ⟨j, -, hj⟩ := hlive
  rw [locOf]
  split
  · rename_i hreg
    rcases hj.placed with hplain | ⟨hvalid, haddr⟩
    · exact h.safe v hplain hreg i hi hheld
    · rw [(h.home v hvalid haddr).2] at hreg
      cases hreg
  · rfl

/-- The slot of a register is the slot of its representative. -/
theorem Outcome.slot (h : Outcome t fn rep base vregs) (hv : Placed fn v) (hslot : (vregs v).inRegister = false) :
    (Placed fn (rep v) ∧ rep (rep v) = rep v ∧ (vregs (rep v)).inRegister = false) ∧
      (vregs (rep v)).spillOffset - slotBytes (fn.vreg (rep v)) = (vregs v).spillOffset - slotBytes (fn.vreg v) := by
  rw [h.inRegister v hv.valid, h.spillOffset v hv.valid, h.bytes v hv]
  exact ⟨⟨h.placed hv, h.idem v hv, hslot⟩, rfl⟩

/-- The colouring allocator is sound for functions without bit tests in which nothing is held over an
explicit write of an allocatable `xmm` register and no copy mixes wide and narrow registers. -/
theorem mirRegallocColor_sound (t : Target) (fn : MirFunction) (hlabels : LabelsResolve fn)
    (hinsns : 0 < fn.insnCount) (hvregs : 0 < fn.vregCount) (hbt : fn.NoBitTest)
    (hxmm : XmmWritesDead fn t.sysv) (hwidth : CopiesKeepWidth fn) :
    ∃ out rep, mirRegallocColor t fn = some out ∧ SoundAllocation fn out rep t.sysv := by
  obtain ⟨out, rep, hout, hrenamed, houtcome⟩ :=
    mirRegallocColor_outcome t hlabels hbt hxmm hwidth hinsns hvregs
  obtain ⟨next, hlayout⟩ := houtcome.layout
  have hkeeps := houtcome.keepsLive
  refine ⟨out, rep, hout, hrenamed, hkeeps, fun v hv w hw hlv hlw hne => ?_, houtcome.home,
    fun v hv hslot => ?_, fun v w hv hw hvslot hwslot hne => ?_, ?_⟩
  · exact houtcome.loc_ne (.entry hv hw hlv hlw hne)
  · obtain ⟨howner, harea⟩ := houtcome.slot hv hslot
    rw [← harea]
    exact hlayout.base_le _ howner
  · obtain ⟨hvowner, hvarea⟩ := houtcome.slot hv hvslot
    obtain ⟨hwowner, hwarea⟩ := houtcome.slot hw hwslot
    rw [← hvarea, ← hwarea, ← houtcome.spillOffset v hv.valid, ← houtcome.spillOffset w hw.valid]
    exact hlayout.apart _ _ hvowner hwowner hne
  · intro Val Ext sem ρ₀ ρ σ₀ e₀ e n i W hentry hrun
    refine ⟨hkeeps.exists_allocRun hrenamed hentry hrun, fun j σ e' halloc => ?_⟩
    exact hkeeps.simulates hentry hrun (halloc.locRun hrenamed)

/-- The System V target. -/
def sysvTarget : Target := { sysv := true, intParamRegisters := [7, 6, 2, 1, 8, 9] }

/-- The sum satisfies the conditions. -/
theorem mirRegallocColor_sound_sum :
    ∃ out rep, mirRegallocColor sysvTarget (sumFunction [{}, {}, {}]) = some out ∧
      SoundAllocation (sumFunction [{}, {}, {}]) out rep true := by
  have hops : ∀ i < 4, ((sumFunction [{}, {}, {}]).insn i).dst.kind ≠ .phys ∧
      ((sumFunction [{}, {}, {}]).insn i).isCopy = false := by decide
  refine mirRegallocColor_sound sysvTarget _ (labelsResolve_of_lt (by decide)) (by decide)
    (by decide) (noBitTest_of_all (by decide)) (fun i hi _ hkind => ?_) fun i hcopy => ?_
  · exact absurd hkind (hops i hi).1
  · by_cases hi : i < 4
    · rw [(hops i hi).2] at hcopy
      cases hcopy
    · rw [insn_of_le (Nat.le_of_not_lt hi)] at hcopy
      cases hcopy

/-- With a bit test the allocator puts two registers into one: it overlooks that `v0` is read on the
taken branch and gives its register to `v1`, whose write destroys it. -/
theorem mirRegallocColor_unsound_bitTest :
    LabelsResolve bitTestFunction ∧ ∃ out, mirRegallocColor sysvTarget bitTestFunction = some out ∧
      LiveAfter bitTestFunction 1 0 ∧ WrittenAt bitTestFunction 1 0 ∧ 1 ∈ bitTestFunction.defs 1 ∧
      out.locOf 1 = out.locOf 0 ∧ ¬ ∃ rep, SoundAllocation bitTestFunction out rep true := by
  have hplaces : ((mirRegallocColor sysvTarget bitTestFunction).map
      fun out => decide (out.locOf 1 = out.locOf 0)) = some true := by decide +kernel
  obtain ⟨out, hout, hsame⟩ := Option.map_eq_some_iff.mp hplaces
  have hloc := of_decide_eq_true hsame
  have hlive : LiveAfter bitTestFunction 1 0 :=
    ⟨2, by decide, .pass (j := 4) (by decide) (by decide)
      (.pass (j := 5) (by decide) (by decide) (.read (by decide)))⟩
  have hwritten : WrittenAt bitTestFunction 1 0 := .write (i := 0) (by decide) (by decide)
  have hdefs : (1 : ℤ) ∈ bitTestFunction.defs 1 := by decide
  refine ⟨labelsResolve_of_lt (by decide), out, hout, hlive, hwritten, hdefs, hloc, ?_⟩
  rintro ⟨rep, hsound⟩
  exact (hsound.keepsLive 1 (by decide) 0 hlive hwritten (by decide)).1 1 hdefs hloc

end Mettle.Mir

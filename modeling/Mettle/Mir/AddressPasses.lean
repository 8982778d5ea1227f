import Mettle.Lib.Loop
import Mettle.Mir.AddressScaleSound

/-!
# The two passes

What each fold keeps is kept by the loop over the instructions. The offsets are folded without a condition; the scales
on the runs where every operand arrives fresh.
-/

open List Function

namespace Mettle.Mir

variable {M V : Type} {H : AddrHost M V} {start : State M V}

namespace Folding

/-- In the beginning the counts are right. -/
theorem counted_start (fn : MirFunction) : Counted ⟨fn, fn.useCount⟩ fn.defCount where
  uses _ hv := (useCount_eq fn hv).ge
  invalid _ hv := if_neg (Bool.eq_false_iff.mp hv)
  defs v := (defCount_eq fn v).ge

/-! ## Offsets -/

/-- What the loop of the offsets keeps. -/
structure OffsetRun (H : AddrHost M V) (start : State M V) (fn : MirFunction) (st : Folding) : Prop where
  follows : ∃ D, Follows H start fn st.fn D (fun _ _ => True) ∧ ∀ v ∈ D, st.fn.Dead v
  counted : Counted st fn.defCount
  shaped : st.fn.WellShaped
  kept : ∀ j, (st.fn.insn j).IsPlain → st.fn.insn j = fn.insn j
  gone : ∀ j, (fn.insn j).op ≠ .nop → (st.fn.insn j).op = .nop → st.fn.Dead (fn.insn j).dst.vreg

variable {fn : MirFunction} {st : Folding}

/-- In the beginning the function follows itself. -/
theorem OffsetRun.init (hshaped : fn.WellShaped) : OffsetRun H start fn ⟨fn, fn.useCount⟩ where
  follows := ⟨∅, .refl, fun _ hv => hv.elim⟩
  counted := counted_start fn
  shaped := hshaped
  kept _ _ := rfl
  gone _ hop hnop := absurd hnop hop

/-- It still does after a step of the offset pass. -/
theorem OffsetRun.offsetStep (h : OffsetRun H start fn st) (k : ℕ) : OffsetRun H start fn (st.offsetStep fn.defCount k) := by
  unfold Folding.offsetStep
  split
  · exact h
  rename_i r hr
  -- one fold more: the run so far followed by it
  have hfold := findOffset_spec hr
  obtain ⟨D, hfollows, hdead⟩ := h.follows
  refine ⟨⟨_, hfollows.trans (hfold.follows h.counted h.shaped fun _ _ => True) fun _ _ _ => trivial, ?_⟩,
    hfold.counted h.counted h.shaped, hfold.wellShaped h.counted h.shaped, fun j hj => ?_, fun j hop hnop => ?_⟩
  · rintro v (hv | hv)
    · exact hfold.dead_mono (hdead v hv)
    · exact hfold.isDead h.counted hv
  · rw [hfold.insn] at hj ⊢
    split at hj
    · exact absurd rfl (op_of_isPlain hj)
    rename_i hdropped
    rw [if_neg hdropped]
    split at hj
    · have hmem : (((st.fn.insn r.site).setSlot r.slot (OffsetFold.operand st k r)).slot r.slot).kind = .mem := by
        rw [slot_setSlot, if_pos rfl]
        exact hfold.sameShape.kind'
      exact absurd hj (not_isPlain_of_slot hmem)
    · rename_i hsite
      rw [if_neg hsite]
      exact h.kept j hj
  · rw [hfold.insn] at hnop
    split at hnop
    · rename_i hdropped
      obtain ⟨hplain, hin, _⟩ := hfold.isPlain hdropped
      rw [← h.kept j hplain]
      exact hfold.isDead h.counted hin
    split at hnop
    · rename_i hsite
      have hop' : ((st.fn.insn r.site).setSlot r.slot (OffsetFold.operand st k r)).op = (st.fn.insn r.site).op := by
        cases r.slot <;> rfl
      exact absurd (hop'.symm.trans hnop) hfold.carries.site.1
    · exact hfold.dead_mono (h.gone j hop hnop)

/-- The function with its offsets folded. -/
theorem foldAddressOffsets_run (hshaped : fn.WellShaped) :
    ∃ st : Folding, st.fn = foldAddressOffsets fn ∧ OffsetRun H start fn st := by
  unfold foldAddressOffsets
  split
  · exact ⟨_, rfl, .init hshaped⟩
  · refine ⟨_, rfl, ?_⟩
    exact @Lib.foldl_range_inv _ _ (fun _ => OffsetRun H start fn) _ (.init hshaped) (fun k _ h => h.offsetStep k)
      fn.insnCount

/-! ## Scales -/

/-- Every operand that a scale is folded into is arrived at fresh. -/
def ArrivesFresh (H : AddrHost M V) (start : State M V) (run fn : MirFunction) (t : List ℕ) (pc : ℕ) : Prop :=
  ∀ k slot scale rest, ScaleFold fn k pc slot scale rest → OneUse fn (fn.insn k).dst.vreg → Fresh H start run k rest t

/-- A function that follows another arrives fresh where that does. -/
theorem Fresh.follows {fn fn' : MirFunction} {D : Set ℤ} {Ok : List ℕ → ℕ → Prop} {k pc : ℕ} {rest : ℤ} {t : List ℕ}
    (hfresh : Fresh H start fn k rest t) (h : Follows H start fn fn' D Ok) (hpath : IsPath fn t pc)
    (hon : OnPath t pc Ok) (ha : (fn'.insn k).a.vreg = (fn.insn k).a.vreg) (hsource : (fn.insn k).a.vreg ∉ D) :
    Fresh H start fn' k rest t := by
  obtain ⟨t₁, t₂, s₁, s, rfl, hlast, hrun₁, hrun, hsame⟩ := hfresh
  have hpre : t₁ ++ [k] <+: (t₁ ++ k :: t₂) ++ [pc] := ⟨t₂ ++ [pc], by simp⟩
  obtain ⟨s₁', hrun₁', hagree₁, _⟩ := h.run (hpath.of_prefix hpre) (fun u q hu => hon u q (hu.trans hpre)) hrun₁
  obtain ⟨s', hrun', hagree, _⟩ := h.run hpath hon hrun
  refine ⟨t₁, t₂, s₁', s', rfl, hlast, hrun₁', hrun', fun hrest => ?_⟩
  rw [ha, hagree.read h.vregs hsource, hagree₁.read h.vregs hsource, hsame hrest]

/-- What the loop of the scales keeps, `k` instructions done. -/
structure ScaleRun (H : AddrHost M V) (start : State M V) (fn : MirFunction) (k : ℕ) (st : Folding) (D : Set ℤ) :
    Prop where
  follows : Follows H start fn st.fn D (ArrivesFresh H start fn fn)
  counted : Counted st fn.defCount
  spent : ∀ v ∈ D, ∀ j, v ∈ (st.fn.insn j).readList → ¬ (st.fn.insn j).IsPlain
  uses : ∀ v, fn.useCount v ≤ st.uses v ∨ st.fn.Dead v
  plain : ∀ j, k ≤ j → (st.fn.insn j).IsPlain → st.fn.insn j = fn.insn j
  slots : ∀ j slot, (st.fn.insn j).slot slot = (fn.insn j).slot slot ∨ ((st.fn.insn j).slot slot).scale ≠ 1
  writes : ∀ j, k ≤ j → ∀ v, (fn.insn j).writes v = true → (st.fn.insn j).writes v = true
  gone : ∀ j, (fn.insn j).op ≠ .nop → (st.fn.insn j).op = .nop →
    (fn.insn j).IsPlain ∧ st.fn.Dead (fn.insn j).dst.vreg
  dead : ∀ v, fn.Dead v → st.fn.Dead v

/-- In the beginning nothing is dead. -/
theorem ScaleRun.init (fn : MirFunction) : ScaleRun H start fn 0 ⟨fn, fn.useCount⟩ ∅ where
  follows := .refl
  counted := counted_start fn
  spent _ hv := hv.elim
  uses _ := .inl le_rfl
  plain _ _ _ := rfl
  slots _ _ := .inl rfl
  writes _ _ _ hw := hw
  gone _ hop hnop := absurd hnop hop
  dead _ hv := hv

variable {k : ℕ} {D : Set ℤ} {slot : Slot} {scale rest : ℤ}

/-- Passing an instruction without a fold. -/
theorem ScaleRun.skip (h : ScaleRun H start fn k st D) : ScaleRun H start fn (k + 1) st D :=
  { h with
    plain := fun j hj => h.plain j (Nat.le_of_succ_le hj)
    writes := fun j hj => h.writes j (Nat.le_of_succ_le hj) }

/-- A register counted once is used once, now and in the beginning. -/
theorem ScaleRun.oneUse (h : ScaleRun H start fn k st D) {v : ℤ} (huses : st.uses v = 1) (hdefs : fn.defCount v = 1)
    (hwrites : (st.fn.insn k).writes v = true) : OneUse st.fn v ∧ OneUse fn v := by
  obtain ⟨hvalid, hread⟩ := h.counted.read_le_one huses
  have hwrite := hdefs ▸ h.counted.defs v
  refine ⟨⟨hread, hwrite, hvalid⟩, ?_⟩
  have hvalid' : fn.valid v = true := valid_of_vregs h.follows.vregs v ▸ hvalid
  refine ⟨?_, (defCount_eq fn v ▸ hdefs).le, hvalid'⟩
  rw [← useCount_eq fn hvalid']
  rcases h.uses v with hle | hdead
  · exact huses ▸ hle
  · rw [hdead.not_writes k] at hwrites
    cases hwrites

/-- The fold is one of the function before the loop. -/
theorem ScaleRun.candidate (h : ScaleRun H start fn k st D) {u : ℕ} (hfold : ScaleFold st.fn k u slot scale rest) :
    ScaleFold fn k u slot scale rest := by
  have hk := h.plain k le_rfl hfold.isPlain
  have hslot : (st.fn.insn u).slot slot = (fn.insn u).slot slot :=
    (h.slots u slot).resolve_right fun hne => hne hfold.one
  refine ⟨hk ▸ hfold.mul, hk ▸ hfold.ne, ?_, hk ▸ hfold.split, hfold.lt, fun hnop => hfold.op (h.follows.nop u hnop),
    hslot ▸ hfold.mem, ?_, hslot ▸ hfold.one, hslot ▸ hfold.phys, hslot ▸ hfold.base, fun hrest j hj hlt => ?_⟩
  · rw [← vreg_of_vregs h.follows.vregs, ← hk]
    exact hfold.reg
  · rw [← hslot, ← hk]
    exact hfold.index
  · by_contra hw
    have hclear := hfold.clear hrest j hj hlt
    rw [hk, h.writes j hj.le _ (Bool.not_eq_false _ ▸ hw)] at hclear
    cases hclear

/-- The counts are right after a fold. -/
theorem ScaleFold.counted {r : ScanResult} (hfold : ScaleFold st.fn k r.site r.slot scale rest)
    (hone : OneUse st.fn (st.fn.insn k).dst.vreg) (hvalid : st.fn.valid (st.fn.insn k).a.vreg = true)
    {defs : ℤ → ℕ} (h : Counted st defs) : Counted (st.applyScale k r scale rest) defs := by
  have hscaled := applyScale_scaled hfold
  have hsame (v : ℤ) := valid_of_vregs hscaled.vregs v
  have huses (v : ℤ) : (st.applyScale k r scale rest).uses v =
      if rest = 1 then update (update st.uses (st.fn.insn k).a.vreg
        (st.uses (st.fn.insn k).a.vreg + 1)) (st.fn.insn k).dst.vreg 0 v else st.uses v := by
    unfold applyScale
    split <;> rfl
  refine ⟨fun v hv => ?_, fun v hv => ?_, fun v => (hscaled.writeCount_le hfold v).trans (h.defs v)⟩
  · rw [hsame] at hv
    have hle := hscaled.readCount_le hfold v
    have hbefore := h.uses v hv
    rw [huses]
    -- with nothing left of the multiplication its own uses are gone too
    by_cases hrest : rest = 1
    · rw [if_pos hrest]
      by_cases hidx : v = (st.fn.insn k).dst.vreg
      · rw [hidx, (hscaled.isDead hfold hone hrest).1]
        exact Nat.zero_le _
      rw [update_of_ne hidx]
      by_cases hsource : v = (st.fn.insn k).a.vreg
      · rw [if_pos ⟨hrest, hsource⟩] at hle
        rw [hsource, update_self]
        rw [hsource] at hle hbefore
        omega
      · rw [if_neg fun hin => hsource hin.2] at hle
        rw [update_of_ne hsource]
        omega
    · rw [if_neg fun hin => hrest hin.1] at hle
      rw [if_neg hrest]
      omega
  · rw [hsame] at hv
    rw [huses]
    split
    · by_cases hidx : v = (st.fn.insn k).dst.vreg
      · rw [hidx, update_self]
      have hsource : v ≠ (st.fn.insn k).a.vreg := by
        rintro rfl
        rw [hvalid] at hv
        cases hv
      rw [update_of_ne hidx, update_of_ne hsource, h.invalid v hv]
    · exact h.invalid v hv

/-- A fold of the scale pass is followed. -/
theorem ScaleRun.fold (h : ScaleRun H start fn k st D) (hshaped : fn.WellShaped) {r : ScanResult}
    (hfold : ScaleFold st.fn k r.site r.slot scale rest) (huses : st.uses (st.fn.insn k).dst.vreg = 1)
    (hdefs : fn.defCount (st.fn.insn k).dst.vreg = 1) :
    ScaleRun H start fn (k + 1) (st.applyScale k r scale rest) (D ∪ {(st.fn.insn k).dst.vreg}) := by
  have hscaled := applyScale_scaled hfold
  have hk := h.plain k le_rfl hfold.isPlain
  obtain ⟨hone, hone'⟩ := h.oneUse huses hdefs (writes_of_isPlain hfold.isPlain)
  have hvalid : fn.valid (st.fn.insn k).a.vreg = true :=
    hk ▸ hshaped.source k (hk ▸ (isImmArith_spec hfold.mul).2.2.2.2.1)
  have hvalid' : st.fn.valid (st.fn.insn k).a.vreg = true := (valid_of_vregs h.follows.vregs _).trans hvalid
  have hsome : (st.fn.insn k).a.vreg ≠ -1 := by
    intro hnone
    rw [hnone] at hvalid
    simp [MirFunction.valid] at hvalid
  -- no plain instruction reads what was spent, so the multiplication does not either
  have hsource : (st.fn.insn k).a.vreg ∉ D := fun hin =>
    h.spent _ hin k hfold.source_read hfold.isPlain
  have hsite : ((st.fn.insn r.site).setSlot r.slot (scaledOperand st.fn k r.site r.slot scale rest)).op ≠ .nop := by
    cases r.slot <;> exact hfold.op
  have hmem : (((st.fn.insn r.site).setSlot r.slot (scaledOperand st.fn k r.site r.slot scale rest)).slot
      r.slot).kind = .mem := by
    rw [slot_setSlot, if_pos rfl]
    exact hfold.sameShape.kind'
  refine ⟨?_, hfold.counted hone hvalid' h.counted, ?_, fun v => ?_, fun j hj => ?_, fun j slot => ?_,
    fun j hj v hw => ?_, fun j hop hnop => ?_, fun v hv => hscaled.dead_mono hfold (h.dead v hv)⟩
  · apply h.follows.trans (hfold.follows hone hscaled hsome)
    rintro t pc hpath hon - rfl
    apply (hon.here k r.slot scale rest (h.candidate hfold) (hk ▸ hone')).follows h.follows hpath hon
    · rw [hk]
    · rw [← hk]
      exact hsource
  · -- the product is read by the operand only, what was spent before by no more than before
    rintro v hv j hread
    have hold : v ∈ (st.fn.insn j).readList ∨ j = r.site := by
      by_cases hju : j = r.site
      · exact .inr hju
      refine .inl (count_pos_iff.mp ((count_pos_iff.mpr hread).trans_le ?_))
      have hle := hscaled.count_le hfold v j
      rwa [if_neg hju] at hle
    have hnotPlain : j = r.site → ¬ ((st.applyScale k r scale rest).fn.insn j).IsPlain := by
      rintro rfl
      rw [hscaled.insn, if_neg hfold.lt.ne', if_pos rfl]
      exact not_isPlain_of_slot hmem
    rcases hv with hv | rfl
    · rcases hold with hold | hju
      · have hbefore := h.spent v hv j hold
        have hjk : j ≠ k := by
          rintro rfl
          exact hbefore hfold.isPlain
        by_cases hju : j = r.site
        · exact hnotPlain hju
        · rw [hscaled.insn, if_neg hjk, if_neg hju]
          exact hbefore
      · exact hnotPlain hju
    · exact hnotPlain (hscaled.reader hfold hone hread).1
  · by_cases hidx : v = (st.fn.insn k).dst.vreg ∧ rest = 1
    · rw [hidx.1]
      exact .inr (hscaled.isDead hfold hone hidx.2)
    rcases h.uses v with hle | hdead
    swap
    · exact .inr (hscaled.dead_mono hfold hdead)
    refine .inl (hle.trans ?_)
    unfold applyScale
    split
    · rename_i hrest
      show st.uses v ≤ update (update st.uses _ _) _ _ v
      rw [update_of_ne fun heq => hidx ⟨heq, hrest⟩]
      by_cases hv : v = (st.fn.insn k).a.vreg
      · rw [hv, update_self]
        exact Nat.le_succ _
      · rw [update_of_ne hv]
    · exact le_rfl
  · rw [hscaled.insn, if_neg (by omega : ¬ j = k)]
    split
    · exact fun hplain => absurd hplain (not_isPlain_of_slot hmem)
    · exact h.plain j (by omega)
  · rw [hscaled.insn]
    split
    · rename_i hj
      have hsame : (scaledMul st.fn k rest).slot slot = (st.fn.insn k).slot slot := by
        unfold scaledMul
        split <;> cases slot <;> rfl
      rw [hsame, ← hj]
      exact h.slots j slot
    split
    · rename_i hju
      rw [slot_setSlot, hju]
      split
      · refine .inr ?_
        unfold scaledOperand
        split <;> exact (indexScaleSplit_spec hfold.split).2
      · exact h.slots r.site slot
    · exact h.slots j slot
  · have hbefore := h.writes j (by omega) v hw
    rw [hscaled.insn, if_neg (by omega : ¬ j = k)]
    split
    · rename_i hju
      rw [hju] at hbefore
      have hkind := hfold.mem
      revert hbefore hkind
      cases r.slot with
      | a => exact fun hbefore _ => hbefore
      | dst =>
        intro hbefore hkind
        simp only [Inst.writes, decide_eq_true_eq] at hbefore
        exact absurd (hbefore.2.1.symm.trans hkind) (by decide)
    · exact hbefore
  · rw [hscaled.insn] at hnop
    split at hnop
    · rename_i hj
      unfold scaledMul at hnop
      split at hnop
      · rename_i hrest
        rw [hj, ← hk]
        exact ⟨hfold.isPlain, hscaled.isDead hfold hone hrest⟩
      · exact absurd hnop (op_of_isPlain hfold.isPlain)
    split at hnop
    · exact absurd hnop hsite
    · exact (h.gone j hop hnop).imp_right (hscaled.dead_mono hfold)

/-- So is every step of it. -/
theorem ScaleRun.scaleStep (h : ∃ D, ScaleRun H start fn k st D) (hshaped : fn.WellShaped) :
    ∃ D, ScaleRun H start fn (k + 1) (st.scaleStep fn.defCount k) D := by
  obtain ⟨D, h⟩ := h
  unfold Folding.scaleStep
  split
  · exact ⟨D, h.skip⟩
  · rename_i r scale rest hr
    obtain ⟨hfold, huses, hdefs⟩ := findScale_spec hr
    exact ⟨_, h.fold hshaped hfold huses hdefs⟩

/-- The function with its scales folded. -/
theorem foldIndexScale_run (hshaped : fn.WellShaped) :
    ∃ (st : Folding) (k : ℕ) (D : Set ℤ), st.fn = foldIndexScale fn ∧ ScaleRun H start fn k st D := by
  unfold foldIndexScale
  split
  · exact ⟨_, 0, ∅, rfl, .init fn⟩
  · obtain ⟨D, h⟩ := @Lib.foldl_range_inv _ _ (fun k st => ∃ D, ScaleRun H start fn k st D) _ ⟨∅, .init fn⟩
      (fun k _ h => ScaleRun.scaleStep h hshaped) fn.insnCount
    exact ⟨_, _, D, rfl, h⟩

end Folding

/-! ## Addresses -/

/-- The two passes, in the order of `code_generator_binary_emit_function_via_mir`. -/
def foldAddresses (fn : MirFunction) : MirFunction := foldIndexScale (foldAddressOffsets fn)

/-- Each memory operand of one instruction denotes the address it denotes in the other. -/
def SameAddresses (H : AddrHost M V) (fn : MirFunction) (s : State M V) (i : Inst) (fn' : MirFunction) (s' : State M V)
    (i' : Inst) : Prop :=
  ∀ p ∈ [(i.dst, i'.dst), (i.a, i'.a), (i.b, i'.b)],
    p.1.kind = .mem → p.2.kind = .mem ∧ H.address fn' s' p.2 = H.address fn s p.1

/-- A run of the function goes the same way after the passes, arriving with the machine it had before and the same
addresses; and what the dropped instructions computed is not read. -/
def AddressesKept (H : AddrHost M V) (start : State M V) (fn fn' : MirFunction) (t : List ℕ) (pc : ℕ) : Prop :=
  ∀ s, H.run fn start t = some s → ∃ s', IsPath fn' t pc ∧ H.run fn' start t = some s' ∧ s'.machine = s.machine ∧
    if (fn'.insn pc).op = .nop then (fn.insn pc).op ≠ .nop → ∀ q, (fn.insn pc).dst.vreg ∉ (fn'.insn q).uses
    else SameAddresses H fn s (fn.insn pc) fn' s' (fn'.insn pc)

/-- Instructions that see the same operands see the same addresses. -/
theorem SameArgs.sameAddresses {fn fn' : MirFunction} {s s' : State M V} {i i' : Inst}
    (h : SameArgs H fn s i fn' s' i') : SameAddresses H fn s i fn' s' i' := by
  have harg {o o' : Operand} (heq : H.arg fn' s' o' = H.arg fn s o) (hkind : o.kind = .mem) :
      o'.kind = .mem ∧ H.address fn' s' o' = H.address fn s o := by
    unfold AddrHost.arg at heq
    rw [hkind] at heq
    cases hkind' : o'.kind <;> simp only [hkind', reduceCtorEq, Arg.address.injEq] at heq
    exact ⟨rfl, heq⟩
  intro p hp hkind
  simp only [mem_cons, not_mem_nil, or_false] at hp
  rcases hp with rfl | rfl | rfl
  · have hdst := h.dst
    have hold : H.dstArg fn s i = H.arg fn s i.dst := if_pos (.inl hkind)
    rw [hold, AddrHost.dstArg] at hdst
    split at hdst
    · exact harg hdst hkind
    · unfold AddrHost.arg at hdst
      have hmem : i.dst.kind = .mem := hkind
      rw [hmem] at hdst
      cases hdst
  · exact harg h.a hkind
  · exact harg h.b hkind

section

variable {fn : MirFunction}

/-- The passes keep the addresses of every run that arrives fresh at the scaled operands. -/
theorem foldAddresses_kept (hshaped : fn.WellShaped) {t : List ℕ} {pc : ℕ} (hpath : IsPath fn t pc)
    (hfresh : OnPath t pc (Folding.ArrivesFresh H start fn (foldAddressOffsets fn))) :
    AddressesKept H start fn (foldAddresses fn) t pc := by
  intro s hrun
  obtain ⟨st₁, hst₁, hoffsets⟩ : ∃ st : Folding, st.fn = foldAddressOffsets fn ∧ Folding.OffsetRun H start fn st :=
    Folding.foldAddressOffsets_run hshaped
  rw [← hst₁] at hfresh
  obtain ⟨st₂, k, D₂, hst₂, hscales⟩ : ∃ (st : Folding) (k : ℕ) (D : Set ℤ), st.fn = foldIndexScale st₁.fn ∧
      Folding.ScaleRun H start st₁.fn k st D := Folding.foldIndexScale_run hoffsets.shaped
  have hfn : foldAddresses fn = st₂.fn := by rw [foldAddresses, ← hst₁, hst₂]
  obtain ⟨D₁, hfollows, hdead⟩ := hoffsets.follows
  have hweak : Follows H start fn st₁.fn D₁ (Folding.ArrivesFresh H start fn st₁.fn) :=
    hfollows.mono fun _ _ _ => trivial
  have hboth : Follows H start fn st₂.fn (D₁ ∪ D₂) (Folding.ArrivesFresh H start fn st₁.fn) := by
    apply hweak.trans hscales.follows
    -- the source of a multiplication is in use, so the run after the first pass finds what the run before it does
    intro u q hu hon _ k slot scale rest hfold hone
    have hk := hoffsets.kept k hfold.isPlain
    apply Folding.Fresh.follows (hon.here k slot scale rest hfold hone) hfollows hu fun _ _ _ => trivial
    · rw [hk]
    · intro hin
      rw [← hk] at hin
      exact (hdead _ hin).notin_readList k hfold.source_read
  obtain ⟨s', hrun', hagree, hargs⟩ := hboth.run hpath hfresh hrun
  rw [hfn]
  refine ⟨s', hpath.congr hboth.next, hrun', hagree.machine, ?_⟩
  split
  · rename_i hnop
    intro hop q
    apply MirFunction.Dead.notin_uses
    by_cases hnop₁ : (st₁.fn.insn pc).op = .nop
    · exact hscales.dead _ (hoffsets.gone pc hop hnop₁)
    · obtain ⟨hplain, hgone⟩ := hscales.gone pc hnop₁ hnop
      rw [← hoffsets.kept pc hplain]
      exact hgone
  · rename_i hkept
    exact (hargs hkept).sameAddresses

end

/-- A host whose other instructions give zero. -/
def flatHost : AddrHost Unit (BitVec 64) where
  word := id
  ofWord := id
  word_ofWord _ := rfl
  readPhys _ _ := 0
  homeAddress _ := 0
  readHome _ _ := 0
  writeHome _ _ _ := ()
  exec _ _ _ _ _ := some (0, ())

def zeroState : State Unit (BitVec 64) := ⟨fun _ => 0, ()⟩

/-- A load at a scaled index. -/
def indexedOnce : MirFunction where
  vregs := List.replicate 4 {}
  insns := [{ op := .imul, dst := .ofVreg 1, a := .ofVreg 0, b := .ofImm 8 },
    { op := .mov, dst := .ofVreg 2, a := { kind := .mem, base := 3, index := 1, scale := 1 } },
    { op := .ret }]

/-- The index is computed once before the loop, whose counter is its source. -/
def indexedInLoop : MirFunction where
  vregs := List.replicate 4 {}
  insns := [{ op := .imul, dst := .ofVreg 1, a := .ofVreg 0, b := .ofImm 8 },
    { op := .label, dst := { kind := .label, sym := some "loop" } },
    { op := .mov, dst := .ofVreg 2, a := { kind := .mem, base := 3, index := 1, scale := 1 } },
    { op := .add, dst := .ofVreg 0, a := .ofVreg 0, b := .ofImm 1 },
    { op := .cmpbr, dst := { kind := .label, sym := some "loop" }, a := .ofVreg 0, b := .ofImm 2 },
    { op := .ret }]

/-- A function is of the right shape when its instructions are. -/
theorem wellShaped_of_insns {fn : MirFunction}
    (h : ∀ i ∈ fn.insns, (i.op = .label → i.a.kind ≠ .mem) ∧ (i.a.kind = .vreg → fn.valid i.a.vreg = true) ∧
      i.a.frameHomeValid = false ∧ i.dst.frameHomeValid = false) : fn.WellShaped := by
  have hall (k : ℕ) : ((fn.insn k).op = .label → (fn.insn k).a.kind ≠ .mem) ∧
      ((fn.insn k).a.kind = .vreg → fn.valid (fn.insn k).a.vreg = true) ∧
      (fn.insn k).a.frameHomeValid = false ∧ (fn.insn k).dst.frameHomeValid = false := by
    by_cases hk : k < fn.insns.length
    · rw [MirFunction.insn, getD_eq_getElem _ _ hk]
      exact h _ (getElem_mem hk)
    · rw [MirFunction.insn_of_le (Nat.le_of_not_lt hk)]
      simp
  refine ⟨fun k => (hall k).1, fun k => (hall k).2.1, fun k slot hhome => ?_⟩
  cases slot with
  | a => exact absurd ((hall k).2.2.1.symm.trans hhome) Bool.false_ne_true
  | dst => exact absurd ((hall k).2.2.2.symm.trans hhome) Bool.false_ne_true

/-- The load of one index keeps its address. -/
theorem foldAddresses_kept_once :
    AddressesKept flatHost zeroState indexedOnce (foldAddresses indexedOnce) [0] 1 := by
  have hpath : IsPath indexedOnce [0] 1 := IsPath.entry.step (by decide)
  have hshaped : indexedOnce.WellShaped := wellShaped_of_insns (by decide)
  apply foldAddresses_kept hshaped hpath
  intro t q hpre k slot scale rest hfold _
  have hlt := hfold.lt
  rcases List.prefix_concat_iff.mp hpre with heq | hpre
  · obtain ⟨rfl, rfl⟩ := List.append_singleton_inj.mp heq
    obtain rfl : k = 0 := by omega
    exact ⟨[], [], _, _, rfl, List.not_mem_nil, rfl, rfl, fun _ => rfl⟩
  · rcases List.prefix_concat_iff.mp (show t ++ [q] <+: [] ++ [0] from hpre) with heq | hpre
    · obtain ⟨rfl, rfl⟩ := List.append_singleton_inj.mp heq
      omega
    · exact absurd (List.prefix_nil.mp hpre) (List.append_ne_nil_of_right_ne_nil _ (List.cons_ne_nil _ _))

/-- In the second round of the loop the load has another address after the passes. -/
theorem foldAddresses_moves : indexedInLoop.WellShaped ∧ IsPath indexedInLoop [0, 1, 2, 3, 4, 1] 2 ∧
    ¬ AddressesKept flatHost zeroState indexedInLoop (foldAddresses indexedInLoop) [0, 1, 2, 3, 4, 1] 2 := by
  have hpath : IsPath indexedInLoop [0, 1, 2, 3, 4, 1] 2 :=
    (((((IsPath.entry.step (by decide : 1 ∈ _)).step (by decide : 2 ∈ _)).step (by decide : 3 ∈ _)).step
      (by decide : 4 ∈ _)).step (by decide : 1 ∈ _)).step (by decide)
  refine ⟨wellShaped_of_insns (by decide), hpath, fun hkept => ?_⟩
  have hsite : (foldAddresses indexedInLoop).insn 2 =
      { op := .mov, dst := .ofVreg 2, a := { kind := .mem, base := 3, index := 0, scale := 8 } } := by
    decide
  have hbefore : (flatHost.run indexedInLoop zeroState [0, 1, 2, 3, 4, 1]).map (fun s =>
      flatHost.address indexedInLoop s (indexedInLoop.insn 2).a) = some 0 := by
    decide
  have hafter : (flatHost.run (foldAddresses indexedInLoop) zeroState [0, 1, 2, 3, 4, 1]).map (fun s =>
      flatHost.address (foldAddresses indexedInLoop) s ((foldAddresses indexedInLoop).insn 2).a) = some 8 := by
    decide
  obtain ⟨s, hrun, haddr⟩ := Option.map_eq_some_iff.mp hbefore
  obtain ⟨s', -, hrun', -, hargs⟩ := hkept s hrun
  rw [hrun', Option.map_some, Option.some.injEq] at hafter
  rw [if_neg (by rw [hsite]; decide)] at hargs
  have hsame := (hargs ((indexedInLoop.insn 2).a, ((foldAddresses indexedInLoop).insn 2).a)
    (List.mem_cons_of_mem _ List.mem_cons_self) rfl).2
  rw [hafter, haddr] at hsame
  exact absurd hsame (by decide)

end Mettle.Mir

import Mettle.Mir.AddressOffsetSound

/-!
# Folded scales

A product that only one memory operand reads can be taken into its scale as long as the operand finds what the
multiplication left: where the multiplication goes, the operand reads its source anew.
-/

open List Option

namespace Mettle.Mir

variable {M V : Type} {H : AddrHost M V}

/-- A stride is split into a scale of an address and a factor that is left. -/
theorem indexScaleSplit_spec {stride scale rest : ℤ} (h : indexScaleSplit stride = some (scale, rest)) :
    stride = scale * rest ∧ scale ≠ 1 := by
  unfold indexScaleSplit at h
  split at h
  · cases h
  obtain ⟨s, hs, hsplit⟩ := List.exists_of_findSome?_eq_some h
  split at hsplit
  · rename_i hrest
    obtain ⟨rfl, rfl⟩ := hsplit
    refine ⟨(Int.mul_ediv_cancel' (Int.dvd_of_emod_eq_zero hrest.1)).symm, ?_⟩
    rintro rfl
    revert hs
    decide
  · cases hsplit

namespace Folding

variable {st : Folding} {defs : ℤ → ℕ}

/-- The scan ends at the use of the index, with a flag for whether its source was written on the way. -/
theorem scan_spec {fn : MirFunction} {idx source : ℤ} {fuel u : ℕ} {clobbered : Bool} {r : ScanResult}
    (h : scan fn idx source fuel u clobbered = some r) :
    u ≤ r.site ∧ (fn.insn r.site).op ≠ .nop ∧ ((fn.insn r.site).slot r.slot).kind = .mem ∧
      ((fn.insn r.site).slot r.slot).index = idx ∧
      (r.clobbered = false → clobbered = false ∧
        ∀ j, u ≤ j → j < r.site → (fn.insn j).writes source = false) := by
  -- on the fuel of the scan
  induction fuel generalizing u clobbered with
  | zero => cases h
  | succ fuel ih =>
    unfold scan at h
    simp only at h
    split at h
    · cases h
    split at h
    · rename_i hnop
      obtain ⟨hle, hop, hmem, hindex, hclear⟩ := ih h
      refine ⟨by omega, hop, hmem, hindex, fun hr => ⟨(hclear hr).1, fun j hj hlt => ?_⟩⟩
      by_cases hju : j = u
      · rw [hju, Inst.writes, hnop]
        simp
      · exact (hclear hr).2 j (by omega) hlt
    rename_i hop
    split at h
    · rename_i slot hslot
      cases h
      obtain ⟨hmem, hindex⟩ := findSlot_spec hslot
      exact ⟨le_rfl, hop, hmem, decide_eq_true_eq.mp hindex, fun hr => ⟨hr, fun j hj (hlt : j < u) => by omega⟩⟩
    · split at h
      · cases h
      obtain ⟨hle, hop', hmem, hindex, hclear⟩ := ih h
      refine ⟨by omega, hop', hmem, hindex, fun hr => ?_⟩
      obtain ⟨hfalse, hrest⟩ := hclear hr
      rw [Bool.or_eq_false_iff, decide_eq_false_iff_not] at hfalse
      refine ⟨hfalse.1, fun j hj hlt => ?_⟩
      by_cases hju : j = u
      · rw [hju, Inst.writes, decide_eq_false_iff_not]
        exact fun hw => hfalse.2 hw.2
      · exact hrest j (by omega) hlt

/-- What the tests of the pass establish about a multiplication and the operand it is folded into. -/
structure ScaleFold (fn : MirFunction) (k u : ℕ) (slot : Slot) (scale rest : ℤ) : Prop where
  mul : (fn.insn k).isImmArith .imul = true
  ne : (fn.insn k).dst.vreg ≠ (fn.insn k).a.vreg
  reg : (fn.vreg (fn.insn k).dst.vreg).addressTaken = false
  split : indexScaleSplit (fn.insn k).b.imm = some (scale, rest)
  lt : k < u
  op : (fn.insn u).op ≠ .nop
  mem : ((fn.insn u).slot slot).kind = .mem
  index : ((fn.insn u).slot slot).index = (fn.insn k).dst.vreg
  one : ((fn.insn u).slot slot).scale = 1
  phys : ((fn.insn u).slot slot).physBaseValid = false
  base : ((fn.insn u).slot slot).base ≠ -1
  clear : rest = 1 → ∀ j, k < j → j < u → (fn.insn j).writes (fn.insn k).a.vreg = false

/-- A scale that is found is a fold. -/
theorem findScale_spec {k : ℕ} {r : ScanResult} {scale rest : ℤ} (h : st.findScale defs k = some (r, scale, rest)) :
    ScaleFold st.fn k r.site r.slot scale rest ∧ st.uses (st.fn.insn k).dst.vreg = 1 ∧
      defs (st.fn.insn k).dst.vreg = 1 := by
  unfold findScale at h
  simp only at h
  split at h
  · cases h
  rename_i hmul
  split at h
  · cases h
  rename_i hguard
  split at h
  · cases h
  rename_i scale' rest' hsplit
  obtain ⟨r', hr', heq⟩ := map_eq_some_iff.mp h
  simp only [Prod.mk.injEq] at heq
  obtain ⟨rfl, rfl, rfl⟩ := heq
  obtain ⟨hscan, hok⟩ := filter_eq_some_iff.mp hr'
  simp only [decide_eq_true_eq, Bool.not_eq_true] at hok
  simp only [not_or, ne_eq, Decidable.not_not, Bool.not_eq_true] at hguard
  obtain ⟨hle, hop, hmem, hindex, hclear⟩ := scan_spec hscan
  refine ⟨⟨by simpa using hmul, hguard.1, hguard.2.2.2, hsplit, hle, hop, hmem, hindex, hok.1, hok.2.1,
    hok.2.2.1, ?_⟩, hguard.2.1, hguard.2.2.1⟩
  intro hrest j hj hlt
  have hfalse : r'.clobbered = false := by
    by_contra hclobbered
    exact hok.2.2.2.2 ⟨hrest, Bool.not_eq_false _ ▸ hclobbered⟩
  exact (hclear hfalse).2 j hj hlt

/-- The source has, arriving at the operand, the value it had when the multiplication last ran; where a factor is left
to multiply by, it is enough that it ran. -/
def Fresh (H : AddrHost M V) (start : State M V) (fn : MirFunction) (k : ℕ) (rest : ℤ) (t : List ℕ) : Prop :=
  ∃ t₁ t₂ s₁ s, t = t₁ ++ k :: t₂ ∧ k ∉ t₂ ∧ H.run fn start t₁ = some s₁ ∧ H.run fn start t = some s ∧
    (rest = 1 → H.read fn s (fn.insn k).a.vreg = H.read fn s₁ (fn.insn k).a.vreg)

/-- The multiplication after the fold. -/
def scaledMul (fn : MirFunction) (k : ℕ) (rest : ℤ) : Inst :=
  if rest = 1 then (fn.insn k).dropped else { fn.insn k with b := { (fn.insn k).b with imm := rest } }

/-- The operand after the fold. -/
def scaledOperand (fn : MirFunction) (k u : ℕ) (slot : Slot) (scale rest : ℤ) : Operand :=
  let mem := (fn.insn u).slot slot
  if rest = 1 then { mem with index := (fn.insn k).a.vreg, scale } else { mem with scale }

/-- The function after the fold. -/
structure Scaled (fn fn' : MirFunction) (k u : ℕ) (slot : Slot) (scale rest : ℤ) : Prop where
  vregs : fn'.vregs = fn.vregs
  count : fn'.insnCount = fn.insnCount
  insn : ∀ j, fn'.insn j =
    if j = k then scaledMul fn k rest
    else if j = u then (fn.insn u).setSlot slot (scaledOperand fn k u slot scale rest) else fn.insn j

section

variable {fn fn' : MirFunction} {k u : ℕ} {slot : Slot} {scale rest : ℤ} {start : State M V}

/-- The product and the use are in the function. -/
theorem ScaleFold.lt_count (h : ScaleFold fn k u slot scale rest) : k < fn.insnCount ∧ u < fn.insnCount := by
  refine ⟨lt_insnCount_of_op ?_, lt_insnCount_of_op h.op⟩
  rw [(isImmArith_spec h.mul).1]
  decide

/-- What the fold does to the function. -/
theorem applyScale_scaled {r : ScanResult} (h : ScaleFold st.fn k r.site r.slot scale rest) :
    Scaled st.fn (st.applyScale k r scale rest).fn k r.site r.slot scale rest := by
  obtain ⟨hk, hu⟩ := h.lt_count
  have hedits (o : Operand) (f : Inst → Inst) (j : ℕ) :
      ((st.fn.edit r.site fun i => i.setSlot r.slot o).edit k f).insn j =
        if j = k then f (st.fn.insn k) else if j = r.site then (st.fn.insn r.site).setSlot r.slot o
          else st.fn.insn j := by
    have hsite := insn_edit st.fn r.site fun i => i.setSlot r.slot o
    have hsame : (st.fn.edit r.site fun i => i.setSlot r.slot o).insn k = st.fn.insn k := by
      rw [hsite, if_neg fun heq => h.lt.ne heq.1]
    rw [insn_edit, edit_insnCount, hsame, hsite]
    simp only [hk, hu, and_true]
  unfold applyScale
  by_cases hrest : rest = 1
  · rw [if_pos hrest]
    refine ⟨rfl, by simp, fun j => ?_⟩
    rw [scaledMul, scaledOperand, if_pos hrest, if_pos hrest]
    exact hedits _ _ j
  · rw [if_neg hrest]
    refine ⟨rfl, by simp, fun j => ?_⟩
    rw [scaledMul, scaledOperand, if_neg hrest, if_neg hrest]
    exact hedits _ _ j

/-- The product is a plain instruction. -/
theorem ScaleFold.isPlain (h : ScaleFold fn k u slot scale rest) : (fn.insn k).IsPlain := .inr (.inr h.mul)

/-- The new operand has the shape of the old one. -/
theorem ScaleFold.sameShape (h : ScaleFold fn k u slot scale rest) :
    SameShape ((fn.insn u).slot slot) (scaledOperand fn k u slot scale rest) := by
  have hmem := h.mem
  have hmem' : (scaledOperand fn k u slot scale rest).kind = .mem := by
    unfold scaledOperand
    split <;> exact hmem
  refine ⟨hmem, hmem', ?_⟩
  rw [Operand.shape, if_pos hmem', Operand.shape, if_pos hmem, scaledOperand]
  split <;> rfl

/-- The product has one reader, the operand, and one writer, the multiplication. -/
structure OneUse (fn : MirFunction) (v : ℤ) : Prop where
  read : fn.readCount v ≤ 1
  write : fn.writeCount v ≤ 1
  valid : fn.valid v = true

section

variable (h : ScaleFold fn k u slot scale rest)
include h

theorem ScaleFold.index_read : (fn.insn k).dst.vreg ∈ (fn.insn u).readList := by
  apply mem_readList_slot h.op h.mem
  rw [Operand.vregs, h.mem, ← h.index]
  exact .tail _ mem_cons_self

/-- Only the use reads the product. -/
theorem ScaleFold.reader (hone : OneUse fn (fn.insn k).dst.vreg) {q : ℕ}
    (hq : (fn.insn k).dst.vreg ∈ (fn.insn q).readList) (hqn : q < fn.insnCount) : q = u :=
  read_unique hone.read hq hqn h.index_read h.lt_count.2

/-- Only the multiplication writes it. -/
theorem ScaleFold.writer (hone : OneUse fn (fn.insn k).dst.vreg) {q : ℕ}
    (hq : (fn.insn q).writes (fn.insn k).dst.vreg = true) : q = k := by
  have hqop : (fn.insn q).op ≠ .nop := by
    simp only [Inst.writes, decide_eq_true_eq] at hq
    exact hq.1
  exact write_unique hone.write hq (lt_insnCount_of_op hqop) (writes_of_isPlain h.isPlain) h.lt_count.1

/-- Every other instruction avoids it. -/
theorem ScaleFold.avoids (hone : OneUse fn (fn.insn k).dst.vreg) {q : ℕ} (hop : (fn.insn q).op ≠ .nop) (hk : q ≠ k)
    (hu : q ≠ u) : Avoids {(fn.insn k).dst.vreg} (fn.insn q) := by
  apply avoids_of_readList hop
  · rintro v hread rfl
    exact hu (h.reader hone hread (lt_insnCount_of_op hop))
  · rintro v hwrites rfl
    exact hk (h.writer hone hwrites)

/-- The other operands of the instruction with the operand, and its base, are not the product. -/
theorem ScaleFold.site_avoids (hone : OneUse fn (fn.insn k).dst.vreg) :
    Avoids {(fn.insn k).dst.vreg} ((fn.insn u).setSlot slot {}) ∧
      ((fn.insn u).slot slot).base ≠ (fn.insn k).dst.vreg := by
  have hle := read_once hone.read h.lt_count.2
  have hcount := count_setSlot (o := {}) h.mem (by decide) h.op (fn.insn k).dst.vreg
  have hempty : (({} : Operand).vregs).count (fn.insn k).dst.vreg = 0 := rfl
  have hslot : ((fn.insn u).slot slot).vregs = [((fn.insn u).slot slot).base, (fn.insn k).dst.vreg] := by
    rw [Operand.vregs, h.mem, ← h.index]
  rw [hslot, count_cons, count_cons] at hcount
  simp only [count_nil, beq_self_eq_true, if_true] at hcount
  have hop' : ((fn.insn u).setSlot slot {}).op ≠ .nop := by cases slot <;> exact h.op
  constructor
  · apply avoids_of_readList hop'
    · rintro v hread rfl
      have hpos := count_pos_iff.mpr hread
      omega
    · rintro v hwrites rfl
      refine h.lt.ne' (h.writer hone ?_)
      exact writes_setSlot (show ({} : Operand).kind ≠ .vreg by decide) hwrites
  · intro hbase
    rw [hbase, beq_self_eq_true, if_pos rfl] at hcount
    omega

/-- After the multiplication last ran, the product is what it left. -/
theorem ScaleFold.product {g : MirFunction} {factor : ℤ} {i : Inst} (hvregs : g.vregs = fn.vregs) (hi : g.insn k = i)
    (hmul : i.isImmArith .imul = true) (hdst : i.dst.vreg = (fn.insn k).dst.vreg) (ha : i.a = (fn.insn k).a)
    (hb : i.b.imm = factor) (hwrite : ∀ q ≠ k, (g.insn q).writes (fn.insn k).dst.vreg = false) {t₁ t₂ : List ℕ}
    (hlast : k ∉ t₂) {s₁ s : State M V} (hrun₁ : H.run g start t₁ = some s₁)
    (hrun : H.run g start (t₁ ++ k :: t₂) = some s) :
    H.word (H.read g s (fn.insn k).dst.vreg) =
      H.word (H.read g s₁ (fn.insn k).a.vreg) * BitVec.ofInt 64 factor := by
  have hreg : (g.vreg (fn.insn k).dst.vreg).addressTaken = false := by
    rw [vreg_of_vregs hvregs]
    exact h.reg
  rw [H.run_append, hrun₁] at hrun
  obtain ⟨s₂, hstep, hrest⟩ : ∃ s₂, H.step g s₁ (g.insn k) = some s₂ ∧ H.run g s₂ t₂ = some s :=
    bind_eq_some_iff.mp hrun
  have hframe : s.regs (fn.insn k).dst.vreg = s₂.regs (fn.insn k).dst.vreg :=
    run_frame (fun q hq => hwrite q fun heq => hlast (heq ▸ hq)) hrest
  rw [hi, step_imul hmul, hdst, ha, hb] at hstep
  rw [AddrHost.read, hreg]
  rw [hframe, ← some.inj hstep, AddrHost.write, hreg]
  simp only [Bool.false_eq_true, if_false, Function.update_self, H.word_ofWord]

/-- The product that is left, if any, is one with a constant. -/
theorem scaledMul_isImmArith (hrest : rest ≠ 1) : (scaledMul fn k rest).isImmArith .imul = true := by
  have hmul := h.mul
  rw [scaledMul, if_neg hrest]
  exact hmul

end

/-- The fold adds no write. -/
theorem Scaled.writes (hs : Scaled fn fn' k u slot scale rest) (h : ScaleFold fn k u slot scale rest) {v : ℤ} {j : ℕ}
    (hw : (fn'.insn j).writes v = true) : (fn.insn j).writes v = true ∧ (j = k → rest ≠ 1) := by
  rw [hs.insn] at hw
  split at hw
  · rename_i hj
    subst hj
    rw [scaledMul] at hw
    split at hw
    · rw [writes_dropped] at hw
      cases hw
    · rename_i hrest
      exact ⟨hw, fun _ => hrest⟩
  · rename_i hj
    refine ⟨?_, fun heq => absurd heq hj⟩
    split at hw
    · rename_i hju
      rw [hju]
      apply writes_setSlot _ hw
      rw [h.sameShape.kind']
      decide
    · exact hw

section

variable (h : ScaleFold fn k u slot scale rest)
include h

/-- The source is another register. -/
theorem ScaleFold.source_notin : (fn.insn k).a.vreg ∉ ({(fn.insn k).dst.vreg} : Set ℤ) := fun heq => h.ne heq.symm

/-- The operand has the same address after the fold, if it arrives fresh. -/
theorem ScaleFold.address (hone : OneUse fn (fn.insn k).dst.vreg) (hs : Scaled fn fn' k u slot scale rest)
    (hsource : (fn.insn k).a.vreg ≠ -1) {t : List ℕ} {s s' : State M V} (hfresh : Fresh H start fn k rest t)
    (hall : AgreeAlong H start fn fn' {(fn.insn k).dst.vreg} t) (hrun : H.run fn start t = some s)
    (hrun' : H.run fn' start t = some s') (hagree : Agree {(fn.insn k).dst.vreg} s s') :
    H.address fn' s' (scaledOperand fn k u slot scale rest) = H.address fn s ((fn.insn u).slot slot) := by
  obtain ⟨t₁, t₂, s₁, s₀, rfl, hlast, hrun₁, hrun₀, hsame⟩ := hfresh
  obtain rfl : s₀ = s := some.inj (hrun₀.symm.trans hrun)
  obtain ⟨hstride, _⟩ := indexScaleSplit_spec h.split
  have hbase := (h.site_avoids hone).2
  have hindex : (fn.insn k).dst.vreg ≠ -1 := by
    intro hnone
    have hvalid := hone.valid
    rw [hnone] at hvalid
    simp [MirFunction.valid] at hvalid
  -- the product that the operand used to read
  have hproduct := h.product rfl rfl h.mul rfl rfl rfl (fun q hq => by
    by_contra hw
    exact hq (h.writer hone (Bool.not_eq_false _ ▸ hw))) hlast hrun₁ hrun₀
  -- what is left of the multiplication after the scale took its part
  have hrest : (if (scaledOperand fn k u slot scale rest).index = -1 then 0
      else H.word (H.read fn' s' (scaledOperand fn k u slot scale rest).index) * BitVec.ofInt 64
        (scaledOperand fn k u slot scale rest).scale) =
      H.word (H.read fn s₁ (fn.insn k).a.vreg) * BitVec.ofInt 64 (fn.insn k).b.imm := by
    by_cases hr : rest = 1
    · have hop : scaledOperand fn k u slot scale rest =
          { (fn.insn u).slot slot with index := (fn.insn k).a.vreg, scale } := if_pos hr
      rw [hop]
      simp only [hsource, if_false]
      rw [hagree.read hs.vregs h.source_notin, hsame hr, hstride, hr, Int.mul_one]
    · have hop : scaledOperand fn k u slot scale rest = { (fn.insn u).slot slot with scale } := if_neg hr
      obtain ⟨v, v', hv, hv', hagree₁⟩ := hall t₁ (prefix_append _ _)
      obtain rfl : v = s₁ := some.inj (hv.symm.trans hrun₁)
      have hscaled : fn'.insn k = scaledMul fn k rest := by rw [hs.insn, if_pos rfl]
      have hmul' := scaledMul_isImmArith h hr
      have hproduct' := h.product (i := scaledMul fn k rest) hs.vregs hscaled hmul'
        (by rw [scaledMul, if_neg hr]) (by rw [scaledMul, if_neg hr])
        (show _ = rest by rw [scaledMul, if_neg hr]) (fun q hq => by
          by_contra hw
          exact hq (h.writer hone (hs.writes h (Bool.not_eq_false _ ▸ hw)).1)) hlast hv' hrun'
      rw [hop]
      simp only [h.index, hindex, if_false]
      rw [hproduct', hagree₁.read hs.vregs h.source_notin, hstride, BitVec.mul_assoc, ← BitVec.ofInt_mul,
        Int.mul_comm rest]
  have hkeep : (scaledOperand fn k u slot scale rest).base = ((fn.insn u).slot slot).base ∧
      (scaledOperand fn k u slot scale rest).disp = ((fn.insn u).slot slot).disp ∧
      (scaledOperand fn k u slot scale rest).frameHomeValid = ((fn.insn u).slot slot).frameHomeValid ∧
      (scaledOperand fn k u slot scale rest).frameHome = ((fn.insn u).slot slot).frameHome ∧
      (scaledOperand fn k u slot scale rest).physBaseValid = ((fn.insn u).slot slot).physBaseValid ∧
      (scaledOperand fn k u slot scale rest).physBase = ((fn.insn u).slot slot).physBase := by
    unfold scaledOperand
    split <;> exact ⟨rfl, rfl, rfl, rfl, rfl, rfl⟩
  obtain ⟨hb, hd, hfv, hfh, hpv, hpb⟩ := hkeep
  unfold AddrHost.address
  rw [hrest, hb, hd, hfv, hfh, hpv, hpb, hagree.machine, hagree.read hs.vregs hbase, h.index, if_neg hindex, hproduct,
    h.one]
  have hunit : BitVec.ofInt 64 1 = 1#64 := rfl
  rw [hunit, BitVec.mul_one]

theorem scaledMul_sameFlow : SameFlow (fn.insn k) (scaledMul fn k rest) := by
  unfold scaledMul
  split
  · exact .dropped h.isPlain
  · exact ⟨rfl, rfl, rfl, .inl rfl⟩

/-- The function after a fold follows the one before it, on the runs that arrive fresh at the operand. -/
theorem ScaleFold.follows (hone : OneUse fn (fn.insn k).dst.vreg) (hs : Scaled fn fn' k u slot scale rest)
    (hsource : (fn.insn k).a.vreg ≠ -1) :
    Follows H start fn fn' {(fn.insn k).dst.vreg} fun t pc => pc = u → Fresh H start fn k rest t := by
  apply Follows.of_steps hs.vregs hs.count
  -- neither the multiplication nor the scale of an operand decides where control goes
  · intro j
    rw [hs.insn]
    split
    · rename_i hj
      rw [hj]
      exact scaledMul_sameFlow h
    · split
      · rename_i _ hj
        rw [hj]
        exact h.sameShape.sameFlow
      · exact .refl _
  · intro j hnop
    rw [hs.insn]
    split
    · rename_i hj
      exact absurd (hj ▸ hnop) (op_of_isPlain h.isPlain)
    · split
      · rename_i _ hj
        exact absurd (hj ▸ hnop) h.op
      · exact hnop
  -- the step at the multiplication, at the operand that took the scale, and anywhere else
  · intro t pc s s' _ hfresh hall hrun hrun' hagree
    rw [hs.insn]
    split
    · -- the multiplication is gone, or multiplies by what is left
      rename_i hj
      subst hj
      by_cases hrest : rest = 1
      · have hnop : (scaledMul fn pc rest).op = .nop := by
          rw [scaledMul, if_pos hrest]
          rfl
        exact ⟨fun s₁ hstep => hagree.drop h.isPlain hnop rfl h.reg hstep, fun hop => absurd hnop hop⟩
      · have hmul' := scaledMul_isImmArith h hrest
        have hmul : scaledMul fn pc rest = { fn.insn pc with b := { (fn.insn pc).b with imm := rest } } := if_neg hrest
        refine ⟨fun s₁ hstep => hagree.both hs.vregs h.isPlain (.inr (.inr hmul')) (by rw [hmul]) rfl h.reg hstep,
          fun _ => ?_⟩
        obtain ⟨hop, _, _, hdst, ha, hb⟩ := isImmArith_spec h.mul
        have hnone (g : MirFunction) (v : State M V) {i : Inst} (hi : i.op = .imul) (hk : i.dst.kind = .vreg) :
            H.dstArg g v i = .none := by
          rw [AddrHost.dstArg, if_neg]
          rw [hk, Inst.readsDst, hi]
          decide
        rw [hmul]
        refine ⟨?_, ?_, ?_⟩
        · apply hagree.arg hs.vregs
          intro v hv
          rw [Operand.vregs, ha, mem_singleton] at hv
          exact hv ▸ h.source_notin
        · simp only [AddrHost.arg, hb]
        · exact (hnone _ _ hop hdst).trans (hnone _ _ hop hdst).symm
    · split
      · rename_i _ hj
        subst hj
        have haddr := h.address hone hs hsource (hfresh rfl) hall hrun hrun' hagree
        have hargs := h.sameShape.sameArgs hagree hs.vregs (h.site_avoids hone).1 haddr
        exact ⟨fun s₁ hstep => h.sameShape.step hagree hs.vregs hargs hstep, fun _ => hargs⟩
      · rename_i hk hu
        by_cases hop : (fn.insn pc).op = .nop
        · refine ⟨fun s₁ hstep => ?_, fun hne => absurd hop hne⟩
          rw [step_nop hop] at hstep ⊢
          exact ⟨s', rfl, some.inj hstep ▸ hagree⟩
        · have havoids := h.avoids hone hop hk hu
          exact ⟨fun s₁ hstep => hagree.step hs.vregs havoids hstep, fun _ => havoids.sameArgs hagree hs.vregs⟩

end

/-! ## What a fold keeps -/

section

variable (hs : Scaled fn fn' k u slot scale rest) (h : ScaleFold fn k u slot scale rest) (v : ℤ)
include hs h

/-- A fold adds at most a read of the source, and that only where the multiplication goes. -/
theorem Scaled.count_le (j : ℕ) :
    (fn'.insn j).readList.count v ≤
      (fn.insn j).readList.count v + if j = u then if rest = 1 ∧ v = (fn.insn k).a.vreg then 1 else 0 else 0 := by
  rw [hs.insn]
  split
  · rename_i hj
    subst hj
    rw [scaledMul]
    split
    · rw [readList_dropped]
      exact Nat.zero_le _
    · have hb := (isImmArith_spec h.mul).2.2.2.2.2
      exact Nat.le_add_right _ _
  split
  · rename_i hj
    subst hj
    have hkind : (scaledOperand fn k j slot scale rest).kind ≠ .vreg := by
      rw [h.sameShape.kind']
      decide
    have hcount := count_setSlot h.mem hkind h.op v
    have hold : ((fn.insn j).slot slot).vregs = [((fn.insn j).slot slot).base, ((fn.insn j).slot slot).index] := by
      rw [Operand.vregs, h.mem]
    -- with nothing left of the multiplication the operand reads its factor instead of the product
    by_cases hrest : rest = 1
    · have hnew : (scaledOperand fn k j slot scale rest).vregs =
          [((fn.insn j).slot slot).base, (fn.insn k).a.vreg] := by
        rw [Operand.vregs, h.sameShape.kind', scaledOperand, if_pos hrest]
      rw [hold, hnew] at hcount
      simp only [count_cons, count_nil] at hcount
      by_cases hv : v = (fn.insn k).a.vreg
      · rw [if_pos ⟨hrest, hv⟩]
        split at hcount <;> split at hcount <;> split at hcount <;> omega
      · have hbeq : ((fn.insn k).a.vreg == v) = false := beq_eq_false_iff_ne.mpr (Ne.symm hv)
        rw [hbeq] at hcount
        simp only [Bool.false_eq_true, if_false] at hcount
        split at hcount <;> split at hcount <;> omega
    · have hnew : (scaledOperand fn k j slot scale rest).vregs = ((fn.insn j).slot slot).vregs := by
        rw [hold, Operand.vregs, h.sameShape.kind', scaledOperand, if_neg hrest]
      rw [hnew] at hcount
      omega
  · exact Nat.le_add_right _ _

/-- Only the source of the product can be read once more. -/
theorem Scaled.readCount_le : fn'.readCount v ≤ fn.readCount v + if rest = 1 ∧ v = (fn.insn k).a.vreg then 1 else 0 :=
  Mir.readCount_le hs.count (hs.count_le h v)

/-- Nothing is written more often. -/
theorem Scaled.writeCount_le :
    fn'.writeCount v ≤ fn.writeCount v := Mir.writeCount_le hs.count fun _ hw => (hs.writes h hw).1

end

/-- The product reads its source. -/
theorem ScaleFold.source_read (h : ScaleFold fn k u slot scale rest) : (fn.insn k).a.vreg ∈ (fn.insn k).readList := by
  obtain ⟨hop, _, _, _, ha, _⟩ := isImmArith_spec h.mul
  rw [Inst.readList, if_neg (by rw [hop]; decide), Operand.vregs, ha]
  exact mem_append_left _ (mem_append_left _ (.head _))

section

variable (hs : Scaled fn fn' k u slot scale rest) (h : ScaleFold fn k u slot scale rest)
include hs h

/-- What was out of use before stays so. -/
theorem Scaled.dead_mono {v : ℤ} (hv : fn.Dead v) : fn'.Dead v := by
  have hne : v ≠ (fn.insn k).a.vreg := by
    rintro rfl
    exact hv.notin_readList k h.source_read
  have hread := hs.readCount_le h v
  rw [if_neg fun hin => hne hin.2, hv.1] at hread
  have hwrite := hs.writeCount_le h v
  rw [hv.2] at hwrite
  exact ⟨Nat.le_zero.mp hread, Nat.le_zero.mp hwrite⟩

/-- The reader of the product after the fold is the operand, where a factor is left. -/
theorem Scaled.reader (hone : OneUse fn (fn.insn k).dst.vreg) {j : ℕ}
    (hj : (fn.insn k).dst.vreg ∈ (fn'.insn j).readList) : j = u ∧ rest ≠ 1 := by
  have hbefore : ∀ q, (fn.insn k).dst.vreg ∈ (fn.insn q).readList → q = u := by
    intro q hq
    apply h.reader hone hq
    apply lt_insnCount_of_op
    intro hnop
    rw [Inst.readList, if_pos hnop] at hq
    exact absurd hq not_mem_nil
  have hcount := hs.count_le h (fn.insn k).dst.vreg j
  simp only [h.ne, and_false, if_false, ite_self, Nat.add_zero] at hcount
  obtain rfl := hbefore j (count_pos_iff.mp ((count_pos_iff.mpr hj).trans_le hcount))
  refine ⟨rfl, fun hrest => ?_⟩
  -- the operand has lost its one read of the product
  have hkind : (scaledOperand fn k j slot scale rest).kind ≠ .vreg := by
    rw [h.sameShape.kind']
    decide
  have hnew := count_setSlot h.mem hkind h.op (fn.insn k).dst.vreg
  have hbase := (h.site_avoids hone).2
  have hsite : fn'.insn j = (fn.insn j).setSlot slot (scaledOperand fn k j slot scale rest) := by
    rw [hs.insn, if_neg h.lt.ne', if_pos rfl]
  have hold : ((fn.insn j).slot slot).vregs = [((fn.insn j).slot slot).base, (fn.insn k).dst.vreg] := by
    rw [Operand.vregs, h.mem, ← h.index]
  have hnone : (scaledOperand fn k j slot scale rest).vregs.count (fn.insn k).dst.vreg = 0 := by
    rw [count_eq_zero, Operand.vregs, h.sameShape.kind', scaledOperand, if_pos hrest]
    rw [mem_cons, mem_singleton, not_or]
    exact ⟨Ne.symm hbase, h.ne⟩
  have honce : ((fn.insn j).slot slot).vregs.count (fn.insn k).dst.vreg = 1 := by
    rw [hold, count_cons, count_cons, count_nil, beq_self_eq_true, if_pos rfl,
      beq_eq_false_iff_ne.mpr hbase]
    rfl
  have hle := read_once hone.read h.lt_count.2
  have hpos := count_pos_iff.mpr hj
  rw [hsite] at hpos
  omega

/-- Where the multiplication goes, its product is out of use. -/
theorem Scaled.isDead (hone : OneUse fn (fn.insn k).dst.vreg) (hrest : rest = 1) : fn'.Dead (fn.insn k).dst.vreg := by
  apply dead_of_insns
  · exact fun j hj => (hs.reader h hone hj).2 hrest
  · intro j
    by_contra hw
    obtain ⟨hw', hj⟩ := hs.writes h (Bool.not_eq_false _ ▸ hw)
    exact hj (h.writer hone hw') hrest

end

end

end Folding

end Mettle.Mir

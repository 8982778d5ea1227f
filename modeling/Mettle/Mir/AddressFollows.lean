import Mettle.Mir.AddressAgree
import Mettle.Mir.AddressFold

/-!
# Functions that follow another

A function follows another when it takes the same control paths, with states that agree and the same operands
at every instruction it has kept.
-/

open List Option

namespace Mettle.Mir

/-! ## Control -/

/-- Instructions that control passes alike: of one operation, or a computation and nothing. -/
structure SameFlow (i i' : Inst) : Prop where
  label : i'.isLabel = i.isLabel
  sym : i'.dst.sym = i.dst.sym
  table : i'.table = i.table
  op : i'.op = i.op ∨ (i.op = .mov ∨ i.op = .add ∨ i.op = .imul) ∧ i'.op = .nop

theorem SameFlow.refl (i : Inst) : SameFlow i i := ⟨rfl, rfl, rfl, .inl rfl⟩

/-- A plain instruction goes to the next one, as it does when it is dropped. -/
theorem SameFlow.dropped {i : Inst} (h : i.IsPlain) : SameFlow i i.dropped where
  label := by
    have hop := h.op.1
    simp only [Inst.isLabel, Inst.dropped]
    rcases hop with hop | hop | hop <;> simp [hop]
  sym := rfl
  table := rfl
  op := .inr ⟨h.op.1, rfl⟩

section

variable {fn fn' : MirFunction}

/-- Labels are found at the same places. -/
theorem labelFind_congr (hlen : fn'.insnCount = fn.insnCount) (hflow : ∀ k, SameFlow (fn.insn k) (fn'.insn k))
    (name : Option String) : fn'.labelFind name = fn.labelFind name := by
  cases name with
  | none => rfl
  | some name =>
    have hmap (g : MirFunction) : g.labelFind (some name) =
        (g.insns.map fun i => i.isLabel && i.dst.sym == some name).findIdx? id := by
      rw [findIdx?_map]
      rfl
    rw [hmap, hmap]
    congr 1
    apply ext_getElem
    · rw [length_map, length_map]
      exact hlen
    · intro k hk' hk
      rw [length_map] at hk hk'
      have hget (g : MirFunction) (h : k < g.insns.length) : g.insns[k] = g.insn k := by
        rw [MirFunction.insn, getD_eq_getElem _ _ h]
      rw [getElem_map, getElem_map, hget fn' hk', hget fn hk, (hflow k).label, (hflow k).sym]

/-- Instructions that control passes alike have the same successors. -/
theorem next_congr (hlen : fn'.insnCount = fn.insnCount) (hflow : ∀ k, SameFlow (fn.insn k) (fn'.insn k)) (k : ℕ) :
    fn'.next k = fn.next k := by
  have hlabel := labelFind_congr hlen hflow
  have hlabels : fn'.labelFind = fn.labelFind := funext hlabel
  have h := hflow k
  unfold MirFunction.next MirFunction.targets MirFunction.falls Inst.isCondBranch
  simp only [h.sym, h.table, hlen, hlabels]
  rcases h.op with hop | ⟨hop | hop | hop, hnop⟩
  · rw [hop]
  · simp [hop, hnop]
  · simp [hop, hnop]
  · simp [hop, hnop]

/-- The paths are those of the other function when control goes on alike. -/
theorem IsPath.congr (hnext : ∀ k, fn'.next k = fn.next k) {t : List ℕ} {pc : ℕ} (h : IsPath fn t pc) :
    IsPath fn' t pc := by
  induction h with
  | entry => exact .entry
  | step _ hmem ih => exact ih.step (by rw [hnext]; exact hmem)

end

variable {t : List ℕ} {pc q : ℕ}

/-- What comes first on a path is a path. -/
theorem IsPath.of_prefix {fn : MirFunction} {t' : List ℕ} (h : IsPath fn t pc) (hpre : t' ++ [q] <+: t ++ [pc]) :
    IsPath fn t' q := by
  have hlast {u u' : List ℕ} {x y : ℕ} (heq : u ++ [x] = u' ++ [y]) : u = u' ∧ x = y :=
    append_singleton_inj.mp heq
  induction h with
  | entry =>
    rcases prefix_concat_iff.mp hpre with heq | hpre
    · obtain ⟨rfl, rfl⟩ := hlast heq
      exact .entry
    · exact absurd (prefix_nil.mp hpre) (append_ne_nil_of_right_ne_nil _ (cons_ne_nil _ _))
  | step hpath hmem ih =>
    rcases prefix_concat_iff.mp hpre with heq | hpre
    · obtain ⟨rfl, rfl⟩ := hlast heq
      exact hpath.step hmem
    · exact ih hpre

/-! ## Following -/

/-- The arrivals along a path that ends at `pc`. -/
def OnPath (t : List ℕ) (pc : ℕ) (Ok : List ℕ → ℕ → Prop) : Prop := ∀ t' q, t' ++ [q] <+: t ++ [pc] → Ok t' q

/-- What holds along a path holds along its beginning. -/
theorem OnPath.before {Ok : List ℕ → ℕ → Prop} (h : OnPath (t ++ [q]) pc Ok) : OnPath t q Ok :=
  fun t' k hpre => h t' k (hpre.trans (prefix_append _ _))

theorem OnPath.here {Ok : List ℕ → ℕ → Prop} (h : OnPath t pc Ok) : Ok t pc :=
  h t pc (prefix_refl _)

/-- `fn'` follows `fn` on the runs from `start` whose arrivals are all `Ok`. -/
structure Follows {M V : Type} (H : AddrHost M V) (start : State M V) (fn fn' : MirFunction) (D : Set ℤ)
    (Ok : List ℕ → ℕ → Prop) : Prop where
  vregs : fn'.vregs = fn.vregs
  count : fn'.insnCount = fn.insnCount
  next : ∀ k, fn'.next k = fn.next k
  nop : ∀ k, (fn.insn k).op = .nop → (fn'.insn k).op = .nop
  run : ∀ {t pc s}, IsPath fn t pc → OnPath t pc Ok → H.run fn start t = some s →
    ∃ s', H.run fn' start t = some s' ∧ Agree D s s' ∧
      ((fn'.insn pc).op ≠ .nop → SameArgs H fn s (fn.insn pc) fn' s' (fn'.insn pc))

section

variable {M V : Type} {H : AddrHost M V} {start : State M V} {fn fn' fn'' : MirFunction} {D D' : Set ℤ}
  {Ok Ok' : List ℕ → ℕ → Prop}

theorem Follows.refl : Follows H start fn fn ∅ Ok where
  vregs := rfl
  count := rfl
  next _ := rfl
  nop _ h := h
  run _ _ hrun := ⟨_, hrun, .refl _ _, fun _ => ⟨rfl, rfl, rfl⟩⟩

/-- A stronger condition on the paths may be asked for. -/
theorem Follows.mono (h : Follows H start fn fn' D Ok') (hok : ∀ t pc, Ok t pc → Ok' t pc) :
    Follows H start fn fn' D Ok :=
  { h with run := fun hpath hon hrun => h.run hpath (fun t' q hpre => hok t' q (hon t' q hpre)) hrun }

/-- Two changes, where the paths of the first one meet what the second one asks. -/
theorem Follows.trans (h : Follows H start fn fn' D Ok) (h' : Follows H start fn' fn'' D' Ok')
    (hok : ∀ {t pc}, IsPath fn t pc → OnPath t pc Ok → (∃ s, H.run fn start t = some s) → Ok' t pc) :
    Follows H start fn fn'' (D ∪ D') Ok where
  vregs := h'.vregs.trans h.vregs
  count := h'.count.trans h.count
  next k := (h'.next k).trans (h.next k)
  nop k hk := h'.nop k (h.nop k hk)
  run {t pc s} hpath honPath hrun := by
    have hon' : OnPath t pc Ok' := by
      intro t' q hpre
      apply hok (hpath.of_prefix hpre) fun u k hu => honPath u k (hu.trans hpre)
      obtain ⟨rest, ht⟩ : t' <+: t := by
        rcases prefix_concat_iff.mp hpre with heq | hpre
        · rw [(append_singleton_inj.mp heq).1]
        · exact (prefix_append _ _).trans hpre
      rw [← ht, H.run_append] at hrun
      exact (bind_eq_some_iff.mp hrun).imp fun _ hs => hs.1
    obtain ⟨s', hrun', hagree, hargs⟩ := h.run hpath honPath hrun
    obtain ⟨s'', hrun'', hagree', hargs'⟩ := h'.run (hpath.congr h.next) hon' hrun'
    refine ⟨s'', hrun'', hagree.trans hagree', fun hnop => ?_⟩
    have hkept : (fn'.insn pc).op ≠ .nop := fun hop => hnop (h'.nop pc hop)
    exact (hargs hkept).trans (hargs' hnop)

/-- Both functions run along a path and all its beginnings, and their states agree. -/
def AgreeAlong (H : AddrHost M V) (start : State M V) (fn fn' : MirFunction) (D : Set ℤ) (t : List ℕ) : Prop :=
  ∀ t', t' <+: t → ∃ s s', H.run fn start t' = some s ∧ H.run fn' start t' = some s' ∧ Agree D s s'

/-- A function follows another when each of its steps does. -/
theorem Follows.of_steps (hvregs : fn'.vregs = fn.vregs) (hcount : fn'.insnCount = fn.insnCount)
    (hflow : ∀ k, SameFlow (fn.insn k) (fn'.insn k)) (hnop : ∀ k, (fn.insn k).op = .nop → (fn'.insn k).op = .nop)
    (hstep : ∀ {t pc s s'}, IsPath fn t pc → Ok t pc → AgreeAlong H start fn fn' D t →
      H.run fn start t = some s → H.run fn' start t = some s' → Agree D s s' →
        (∀ s₁, H.step fn s (fn.insn pc) = some s₁ → ∃ s₁', H.step fn' s' (fn'.insn pc) = some s₁' ∧ Agree D s₁ s₁') ∧
        ((fn'.insn pc).op ≠ .nop → SameArgs H fn s (fn.insn pc) fn' s' (fn'.insn pc))) :
    Follows H start fn fn' D Ok where
  vregs := hvregs
  count := hcount
  next := next_congr hcount hflow
  nop := hnop
  run {t pc s} hpath honPath hrun := by
    have hall : AgreeAlong H start fn fn' D t := by
      induction hpath generalizing s with
      | entry =>
        intro t' hpre
        rw [prefix_nil.mp hpre]
        exact ⟨start, start, rfl, rfl, .refl _ _⟩
      | @step t pc pc' hpath hmem ih =>
        intro t' hpre
        rw [H.run_snoc] at hrun
        obtain ⟨s₀, hrun₀, hs⟩ := bind_eq_some_iff.mp hrun
        have hbefore := ih honPath.before hrun₀
        rcases prefix_concat_iff.mp hpre with rfl | hpre
        · obtain ⟨u, u', hu, hu', hagree₀⟩ := hbefore t (prefix_refl _)
          obtain rfl : u = s₀ := some.inj (hu.symm.trans hrun₀)
          obtain ⟨s₁', hs', hagree₁⟩ := (hstep hpath honPath.before.here hbefore hu hu' hagree₀).1 s hs
          exact ⟨s, s₁', by rw [H.run_snoc, hu]; exact hs, by rw [H.run_snoc, hu']; exact hs', hagree₁⟩
        · exact hbefore t' hpre
    obtain ⟨u, s', hu, hrun', hagree⟩ := hall t (prefix_refl _)
    obtain rfl : u = s := some.inj (hu.symm.trans hrun)
    exact ⟨s', hrun', hagree, (hstep hpath honPath.here hall hrun hrun' hagree).2⟩

end

/-! ## Counting reads and writes -/

section

variable (fn : MirFunction)

/-- How often a register is read. -/
def MirFunction.readCount (v : ℤ) : ℕ := ∑ k ∈ Finset.range fn.insnCount, (fn.insn k).readList.count v

/-- Whether an instruction writes a register. -/
def Inst.writes (i : Inst) (v : ℤ) : Bool := i.op ≠ .nop ∧ i.dst.kind = .vreg ∧ i.dst.vreg = v

/-- How often a register is written. -/
def MirFunction.writeCount (v : ℤ) : ℕ := ∑ k ∈ Finset.range fn.insnCount, if (fn.insn k).writes v then 1 else 0

/-- A sum over the list of instructions as one over their places. -/
theorem sum_map_insns (f : Inst → ℕ) : (fn.insns.map f).sum = ∑ k ∈ Finset.range fn.insnCount, f (fn.insn k) := by
  have hget : fn.insns.map f = (range fn.insnCount).map fun k => f (fn.insn k) := by
    apply ext_getElem
    · simp [MirFunction.insnCount]
    · intro k hk _
      rw [length_map] at hk
      rw [getElem_map, getElem_map, getElem_range, MirFunction.insn, getD_eq_getElem _ _ hk]
  rw [hget]
  rfl

/-- The uses that the pass counts are the reads. -/
theorem useCount_eq {v : ℤ} (hv : fn.valid v = true) : fn.useCount v = fn.readCount v := by
  rw [MirFunction.useCount, if_pos hv, count_flatMap]
  exact sum_map_insns fn fun i => i.readList.count v

/-- The definitions that it counts are the writes. -/
theorem defCount_eq (v : ℤ) : fn.defCount v = fn.writeCount v := by
  rw [MirFunction.defCount, MirFunction.writeCount, ← sum_map_insns fn fun i => if i.writes v then 1 else 0]
  induction fn.insns with
  | nil => rfl
  | cons i insns ih =>
    rw [countP_cons, ih, map_cons, sum_cons, Nat.add_comm]
    rfl

end

section

variable {fn fn' : MirFunction} {v : ℤ}

/-- Two places count for as much as they are in the sum. -/
theorem le_sum_pair {n p q : ℕ} (f : ℕ → ℕ) (hp : p < n) (hq : q < n) (hpq : p ≠ q) :
    f p + f q ≤ ∑ k ∈ Finset.range n, f k := by
  rw [← Finset.sum_pair hpq]
  apply Finset.sum_le_sum_of_subset
  intro k hk
  rcases Finset.mem_insert.mp hk with rfl | hk
  · exact Finset.mem_range.mpr hp
  · rw [Finset.mem_singleton.mp hk]
    exact Finset.mem_range.mpr hq

/-- A register that is read once is read by one instruction. -/
theorem read_unique {p q : ℕ} (h : fn.readCount v ≤ 1) (hp : v ∈ (fn.insn p).readList) (hpn : p < fn.insnCount)
    (hq : v ∈ (fn.insn q).readList) (hqn : q < fn.insnCount) : p = q := by
  by_contra hpq
  have hsum := le_sum_pair (fun k => (fn.insn k).readList.count v) hpn hqn hpq
  have hp' := count_pos_iff.mpr hp
  have hq' := count_pos_iff.mpr hq
  rw [MirFunction.readCount] at h
  omega

/-- A register read at most once in all is read at most once by an instruction. -/
theorem read_once {p : ℕ} (h : fn.readCount v ≤ 1) (hpn : p < fn.insnCount) : (fn.insn p).readList.count v ≤ 1 :=
  (Finset.single_le_sum (fun _ _ => Nat.zero_le _) (Finset.mem_range.mpr hpn)).trans h

/-- A register that is written once is written by one instruction. -/
theorem write_unique {p q : ℕ} (h : fn.writeCount v ≤ 1) (hp : (fn.insn p).writes v = true) (hpn : p < fn.insnCount)
    (hq : (fn.insn q).writes v = true) (hqn : q < fn.insnCount) : p = q := by
  by_contra hpq
  have hsum := le_sum_pair (fun k => if (fn.insn k).writes v then 1 else 0) hpn hqn hpq
  rw [MirFunction.writeCount] at h
  simp only [hp, hq, if_true] at hsum
  omega

/-- When one place reads it more often, the register is read more often by as much. -/
theorem readCount_le {site c : ℕ} (hcount : fn'.insnCount = fn.insnCount)
    (h : ∀ k, (fn'.insn k).readList.count v ≤ (fn.insn k).readList.count v + if k = site then c else 0) :
    fn'.readCount v ≤ fn.readCount v + c := by
  rw [MirFunction.readCount, MirFunction.readCount, hcount]
  calc ∑ k ∈ Finset.range fn.insnCount, (fn'.insn k).readList.count v
      ≤ ∑ k ∈ Finset.range fn.insnCount, ((fn.insn k).readList.count v + if k = site then c else 0) :=
        Finset.sum_le_sum fun k _ => h k
    _ = fn.readCount v + ∑ k ∈ Finset.range fn.insnCount, if k = site then c else 0 := Finset.sum_add_distrib
    _ ≤ fn.readCount v + c := by
        rw [Finset.sum_ite_eq']
        split <;> omega

/-- When no place writes it anew, the register is not written more often. -/
theorem writeCount_le (hcount : fn'.insnCount = fn.insnCount)
    (h : ∀ k, (fn'.insn k).writes v = true → (fn.insn k).writes v = true) : fn'.writeCount v ≤ fn.writeCount v := by
  rw [MirFunction.writeCount, MirFunction.writeCount, hcount]
  apply Finset.sum_le_sum
  intro k _
  split
  · rw [if_pos (h k (by assumption))]
  · exact Nat.zero_le _

/-- Instructions that do not write a register leave it as it is. -/
theorem step_frame {M V : Type} {H : AddrHost M V} {s s' : State M V} {i : Inst} (hw : i.writes v = false)
    (hstep : H.step fn s i = some s') : s'.regs v = s.regs v := by
  have hwrite (hop : i.op ≠ .nop) (hkind : i.dst.kind = .vreg) (s : State M V) (x : V) :
      (H.write fn s i.dst.vreg x).regs v = s.regs v := by
    have hne : v ≠ i.dst.vreg := by
      rintro rfl
      simp [Inst.writes, hop, hkind] at hw
    unfold AddrHost.write
    split
    · rfl
    · exact Function.update_of_ne hne _ _
  by_cases hplain : i.IsPlain
  · obtain ⟨x, hx⟩ := hplain.step H fn s
    rw [hx] at hstep
    rw [← some.inj hstep]
    exact hwrite (fun hop => by rcases hplain.op.1 with h | h | h <;> rw [h] at hop <;> cases hop) hplain.op.2 s x
  unfold AddrHost.step at hstep
  split at hstep
  · rw [← some.inj hstep]
  rename_i hnop
  rw [not_or] at hnop
  rw [if_neg (fun h => hplain (.inl h)), if_neg (fun h => hplain (.inr (.inl h))),
    if_neg (fun h => hplain (.inr (.inr h)))] at hstep
  obtain ⟨⟨x, m⟩, -, rfl⟩ := map_eq_some_iff.mp hstep
  by_cases hkind : i.dst.kind = .vreg
  · simp only [if_pos hkind]
    exact hwrite hnop.1 hkind _ _
  · simp only [if_neg hkind]

/-- A path that does not write a register keeps its value. -/
theorem run_frame {M V : Type} {H : AddrHost M V} {s s' : State M V} {t : List ℕ}
    (hw : ∀ q ∈ t, (fn.insn q).writes v = false) (hrun : H.run fn s t = some s') : s'.regs v = s.regs v := by
  induction t generalizing s with
  | nil => rw [← some.inj hrun]
  | cons q t ih =>
    obtain ⟨s₁, hstep, hrest⟩ := bind_eq_some_iff.mp hrun
    rw [ih (fun p hp => hw p (.tail _ hp)) hrest]
    exact step_frame (hw q (.head _)) hstep

theorem lt_insnCount_of_op {k : ℕ} (h : (fn.insn k).op ≠ .nop) : k < fn.insnCount := by
  by_contra hk
  rw [MirFunction.insn_of_le (Nat.le_of_not_lt hk)] at h
  exact h rfl

/-! ## Edits -/

/-- The instructions after one was edited. -/
theorem insn_edit (fn : MirFunction) (k : ℕ) (f : Inst → Inst) (j : ℕ) :
    (fn.edit k f).insn j = if j = k ∧ k < fn.insnCount then f (fn.insn k) else fn.insn j := by
  unfold MirFunction.edit MirFunction.insn MirFunction.insnCount
  simp only [getD_eq_getElem?_getD, List.getElem?_modify]
  by_cases hjk : j = k
  · subst hjk
    by_cases hlt : j < fn.insns.length
    · rw [if_pos ⟨rfl, hlt⟩, List.getElem?_eq_getElem hlt]
      simp
    · rw [if_neg fun h => hlt h.2, List.getElem?_eq_none (by omega)]
      rfl
  · rw [if_neg fun h => hjk h.1]
    simp [Ne.symm hjk]

@[simp] theorem edit_insnCount (k : ℕ) (f : Inst → Inst) : (fn.edit k f).insnCount = fn.insnCount :=
  length_modify _ _ _

/-- Dropping some instructions. -/
theorem drop_edits (fn : MirFunction) (ks : List ℕ) :
    (ks.foldl (fun fn j => fn.edit j Inst.dropped) fn).insnCount = fn.insnCount ∧
      (ks.foldl (fun fn j => fn.edit j Inst.dropped) fn).vregs = fn.vregs ∧
      ∀ j, (ks.foldl (fun fn j => fn.edit j Inst.dropped) fn).insn j =
        if j ∈ ks ∧ j < fn.insnCount then (fn.insn j).dropped else fn.insn j := by
  induction ks generalizing fn with
  | nil =>
    refine ⟨rfl, rfl, fun j => ?_⟩
    rfl
  | cons k ks ih =>
    obtain ⟨hcount, hvregs, hinsn⟩ := ih (fn.edit k Inst.dropped)
    refine ⟨hcount.trans (edit_insnCount _ _), hvregs, fun j => (hinsn j).trans ?_⟩
    have hedit := insn_edit fn k Inst.dropped j
    rw [edit_insnCount]
    by_cases hj : j < fn.insnCount
    · by_cases hjk : j = k
      · subst hjk
        rw [if_pos ⟨rfl, hj⟩] at hedit
        have hkept : (if j ∈ ks ∧ j < fn.insnCount then (fn.insn j).dropped.dropped else (fn.insn j).dropped) =
            (fn.insn j).dropped := by split <;> rfl
        rw [hedit, hkept, if_pos ⟨mem_cons_self, hj⟩]
      · rw [if_neg fun h => hjk h.1] at hedit
        rw [hedit]
        simp only [mem_cons, hjk, false_or]
    · rw [if_neg fun h => hj h.2, if_neg fun h => hj h.2, hedit, if_neg]
      rintro ⟨rfl, hlt⟩
      exact hj hlt

/-! ## Registers out of use -/

/-- A register that nothing reads or writes. -/
def MirFunction.Dead (fn : MirFunction) (v : ℤ) : Prop := fn.readCount v = 0 ∧ fn.writeCount v = 0

/-- A register that nothing reads or writes is dead. -/
theorem dead_of_insns (hread : ∀ k, v ∉ (fn.insn k).readList) (hwrite : ∀ k, (fn.insn k).writes v = false) :
    fn.Dead v := by
  constructor
  · apply Finset.sum_eq_zero
    intro k _
    exact count_eq_zero.mpr (hread k)
  · apply Finset.sum_eq_zero
    intro k _
    rw [hwrite k]
    rfl

theorem MirFunction.Dead.notin_readList (h : fn.Dead v) (k : ℕ) : v ∉ (fn.insn k).readList := by
  intro hv
  have hop : (fn.insn k).op ≠ .nop := by
    intro hnop
    rw [Inst.readList, if_pos hnop] at hv
    exact absurd hv not_mem_nil
  have hle := Finset.single_le_sum (f := fun k => (fn.insn k).readList.count v) (fun _ _ => Nat.zero_le _)
    (Finset.mem_range.mpr (lt_insnCount_of_op hop))
  have hpos := count_pos_iff.mpr hv
  have hzero : ∑ k ∈ Finset.range fn.insnCount, (fn.insn k).readList.count v = 0 := h.1
  omega

theorem MirFunction.Dead.not_writes (h : fn.Dead v) (k : ℕ) : (fn.insn k).writes v = false := by
  by_contra hw
  rw [Bool.not_eq_false] at hw
  have hop : (fn.insn k).op ≠ .nop := by
    simp only [Inst.writes, decide_eq_true_eq] at hw
    exact hw.1
  have hle := Finset.single_le_sum (f := fun k => if (fn.insn k).writes v then 1 else 0) (fun _ _ => Nat.zero_le _)
    (Finset.mem_range.mpr (lt_insnCount_of_op hop))
  have hzero : (∑ k ∈ Finset.range fn.insnCount, if (fn.insn k).writes v then 1 else 0) = 0 := h.2
  simp only [hw, if_true] at hle
  omega

/-- What is out of use is not among the registers an instruction reads, its destination included. -/
theorem MirFunction.Dead.notin_uses (h : fn.Dead v) (k : ℕ) : v ∉ (fn.insn k).uses := by
  unfold Inst.uses
  split
  · exact not_mem_nil
  rename_i hop
  have hread := h.notin_readList k
  have hwrite := h.not_writes k
  rw [Inst.readList, if_neg hop] at hread
  simp only [mem_append, not_or] at hread ⊢
  refine ⟨⟨?_, hread.1.1⟩, hread.1.2⟩
  split
  · by_cases hkind : (fn.insn k).dst.kind = .vreg
    · simp only [Inst.writes, decide_eq_false_iff_not] at hwrite
      rw [Operand.vregs, hkind, mem_singleton]
      exact fun heq => hwrite ⟨hop, hkind, heq.symm⟩
    · rw [if_neg hkind] at hread
      exact hread.2
  · exact not_mem_nil

end

end Mettle.Mir

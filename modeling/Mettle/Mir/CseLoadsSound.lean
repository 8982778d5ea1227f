import Mettle.Mir.CseLoads

/-!
# Reused loads hold what would be loaded

On a function with safe tables every entry of the table is a load whose register still holds what the load
would give, on every control path (`entries_valid`). So the pass changes no run.
-/

open List Option Function

namespace Mettle.Mir

namespace MirFunction

variable {fn : MirFunction}

/-! ## Labels and branches -/

variable {first d b label i : ℕ} {name : String} {state : CseState} {e : AvailableLoad}

/-- The search finds the first label of the name from where it starts. -/
theorem cseFindLabel_eq_some :
    fn.cseFindLabel first name = some d ↔ (first ≤ d ∧ (fn.insn d).isLabel = true ∧
      (fn.insn d).dst.sym = some name) ∧ d < fn.insnCount ∧
      ∀ j < d, ¬ (first ≤ j ∧ (fn.insn j).isLabel = true ∧ (fn.insn j).dst.sym = some name) := by
  unfold cseFindLabel
  rw [find?_range_eq_some, mem_range, decide_eq_true_eq]
  refine and_congr_right fun _ => and_congr_right fun _ => forall₂_congr fun j _ => ?_
  rw [Bool.not_eq_true', decide_eq_false_iff_not]

/-- The search of the machine starts at the first instruction. -/
theorem labelFind_eq (name : String) : fn.labelFind (some name) = fn.cseFindLabel 0 name := by
  have hget : ∀ {j} (hj : j < fn.insns.length), fn.insns[j] = fn.insn j := by
    intro j hj
    rw [insn, getD_eq_getElem _ _ hj]
  apply ext
  intro d
  rw [cseFindLabel_eq_some, labelFind, findIdx?_eq_some_iff_getElem]
  constructor
  · rintro ⟨hlt, hlabel, hfirst⟩
    rw [hget hlt, Bool.and_eq_true, beq_iff_eq] at hlabel
    refine ⟨⟨Nat.zero_le _, hlabel⟩, hlt, fun j hj hfound => hfirst j hj ?_⟩
    rw [hget (hj.trans hlt), Bool.and_eq_true, beq_iff_eq]
    exact hfound.2
  · rintro ⟨⟨-, hlabel⟩, hlt, hfirst⟩
    refine ⟨hlt, ?_, fun j hj hfound => hfirst j hj ?_⟩
    · rw [hget hlt, Bool.and_eq_true, beq_iff_eq]
      exact hlabel
    · rw [hget (hj.trans hlt), Bool.and_eq_true, beq_iff_eq] at hfound
      exact ⟨Nat.zero_le _, hfound⟩

/-- A search that starts below the label finds it, too. -/
theorem cseFindLabel_mono (h : fn.cseFindLabel 0 name = some d) (hle : first ≤ d) :
    fn.cseFindLabel first name = some d := by
  rw [cseFindLabel_eq_some] at h ⊢
  obtain ⟨⟨-, hlabel⟩, hlt, hfirst⟩ := h
  exact ⟨⟨hle, hlabel⟩, hlt, fun j hj hfound => hfirst j hj ⟨Nat.zero_le _, hfound.2⟩⟩

/-- The target of a branch is a label behind the start of the search. -/
theorem cseTarget_spec (h : fn.cseTarget first b = some label) :
    (fn.insn b).dst.kind = .label ∧ first ≤ label ∧ (fn.insn label).op = .label ∧ label < fn.insnCount := by
  unfold cseTarget at h
  split at h
  · rename_i hkind
    rw [bind_eq_some_iff] at h
    obtain ⟨name, -, hfind⟩ := h
    rw [cseFindLabel_eq_some] at hfind
    obtain ⟨⟨hle, hlabel, -⟩, hlt, -⟩ := hfind
    refine ⟨hkind, hle, ?_, hlt⟩
    simp only [Inst.isLabel, decide_eq_true_eq] at hlabel
    exact hlabel.1
  · cases h

/-- A target far enough behind is found from a later start, too. -/
theorem cseTarget_mono (h : fn.cseTarget 0 b = some label) (hle : first ≤ label) :
    fn.cseTarget first b = some label := by
  unfold cseTarget at h ⊢
  split at h
  · rename_i hkind
    rw [if_pos hkind]
    rw [bind_eq_some_iff] at h ⊢
    obtain ⟨name, hname, hfind⟩ := h
    exact ⟨name, hname, cseFindLabel_mono hfind hle⟩
  · cases h

/-- The last branch to a label comes after every other one. -/
theorem le_csePredHi (hb : b < fn.insnCount) (hop : (fn.insn b).op.cseIsBranch = true)
    (htarget : fn.cseTarget 0 b = some label) : ∃ hi, fn.csePredHi label = some hi ∧ b ≤ hi := by
  unfold csePredHi
  set branches := (range fn.insnCount).filter fun b =>
    (fn.insn b).op.cseIsBranch ∧ fn.cseTarget 0 b = some label with hbranches
  have hmem : b ∈ branches := by
    rw [hbranches, mem_filter, mem_range, decide_eq_true_eq]
    exact ⟨hb, hop, htarget⟩
  have hsorted : branches.Pairwise (· < ·) := pairwise_lt_range.filter _
  cases hlast : branches.getLast? with
  | none =>
    rw [getLast?_eq_none_iff] at hlast
    rw [hlast] at hmem
    cases hmem
  | some hi =>
    refine ⟨hi, rfl, ?_⟩
    obtain ⟨init, hinit⟩ := getLast?_eq_some_iff.mp hlast
    rw [hinit] at hmem hsorted
    rcases mem_append.mp hmem with h | h
    · exact ((pairwise_append.mp hsorted).2.2 b h hi (.head _)).le
    · exact (mem_singleton.mp h).le

/-- Behind an instruction that is no `NOP` there is a previous one. -/
theorem prevRealInsn_isSome {j : ℕ} (hlt : j < i) (hop : (fn.insn j).op ≠ .nop) :
    (fn.prevRealInsn i).isSome = true := by
  induction i with
  | zero => omega
  | succ i ih =>
    unfold prevRealInsn
    split
    · rfl
    · rename_i hnop
      refine ih ?_
      rcases Nat.lt_succ_iff_lt_or_eq.mp hlt with h | rfl
      · exact h
      · exact absurd hop hnop

/-- What is known of a branch that leaves its table. -/
theorem cseLeaves.branch (h : fn.cseLeaves b label) :
    (fn.insn b).op ≠ .nop ∧ (fn.insn b).op ≠ .label ∧ (fn.insn b).clobbersMemory = false ∧
      (fn.insn b).isPlainLoad = false ∧ (fn.insn b).dst.kind = .label := by
  obtain ⟨hop, htarget⟩ := h
  have hkind := (cseTarget_spec htarget).1
  simp only [Opcode.cseSnapshotsAt, mem_cons, not_mem_nil, or_false, decide_eq_true_eq] at hop
  rcases hop with hop | hop | hop | hop <;>
    simp [Inst.clobbersMemory, Inst.isPlainLoad, Opcode.info, hop, hkind]

theorem cseLeaves.kills (h : fn.cseLeaves b label) (d : ℕ) : fn.cseKills d b = false := by
  obtain ⟨-, -, hclobbers, -, hkind⟩ := h.branch
  simp [cseKills, hclobbers, hkind]

/-! ## The tables -/

/-- A branch that leaves no table changes nothing. -/
theorem snapshotTarget_of_not_leaves (h : ∀ label, ¬ fn.cseLeaves i label) : state.snapshotTarget fn i = state := by
  unfold CseState.snapshotTarget
  split
  · rename_i hcond
    split
    · rfl
    · rename_i target htarget
      exact absurd ⟨hcond.2, htarget⟩ (h target)
  · rfl

/-- The table before a jump is noted for its label. -/
theorem snapshotTarget_of_leaves (hon : fn.cseHasSnapshots = true) (h : fn.cseLeaves i label) :
    state.snapshotTarget fn i = { state with snaps := update state.snaps label (some
      (match state.snaps label with
        | none => state.table
        | some slot => loadTableIntersect slot state.table)) } := by
  unfold CseState.snapshotTarget
  rewrite [if_pos ⟨hon, h.1⟩, h.2]
  rfl

/-- Noting a table does not change it. -/
theorem snapshotTarget_table (i : ℕ) (state : CseState) : (state.snapshotTarget fn i).table = state.table := by
  unfold CseState.snapshotTarget
  split
  · split <;> rfl
  · rfl

/-- What two tables have in common. -/
theorem mem_loadTableIntersect {dst keep : List AvailableLoad} :
    e ∈ loadTableIntersect dst keep ↔ e ∈ dst ∧ ∃ e' ∈ keep, e'.dst = e.dst := by
  unfold loadTableIntersect
  rw [mem_filter, List.any_eq_true]
  refine and_congr_right fun _ => exists_congr fun e' => and_congr_right fun _ => ?_
  rw [decide_eq_true_eq, eq_comm]

/-- The entry is that of its load. -/
def EntryOf (fn : MirFunction) (e : AvailableLoad) : Prop := e = .ofLoad (fn.insn e.site) e.site

/-- What the state before an instruction knows of the loads and branches before it. -/
structure Tracks (fn : MirFunction) (i : ℕ) (state : CseState) : Prop where
  table : ∀ e ∈ state.table, fn.EntryOf e ∧ ∃ k, i = k + 1 ∧ fn.OpenAfter e.site k
  slots : ∀ {label slot}, state.snaps label = some slot → ∀ e ∈ slot, fn.EntryOf e ∧
    ∃ b, fn.OpenAfter e.site b ∧ fn.cseLeaves b label
  left : fn.cseHasSnapshots = true → ∀ {b label}, b < i → fn.cseLeaves b label →
    ∃ slot, state.snaps label = some slot ∧ ∀ e ∈ slot, ∃ e' ∈ (fn.cseBefore b).table, e'.dst = e.dst
  off : fn.cseHasSnapshots = false → ∀ label, state.snaps label = none

/-- The tables of the labels after a branch. -/
theorem Tracks.snapshot (h : Tracks fn i (fn.cseBefore i)) :
    (∀ {label slot}, ((fn.cseBefore i).snapshotTarget fn i).snaps label = some slot → ∀ e ∈ slot,
      fn.EntryOf e ∧ ∃ b, fn.OpenAfter e.site b ∧ fn.cseLeaves b label) ∧
    (fn.cseHasSnapshots = true → ∀ {b label}, b < i + 1 → fn.cseLeaves b label →
      ∃ slot, ((fn.cseBefore i).snapshotTarget fn i).snaps label = some slot ∧
        ∀ e ∈ slot, ∃ e' ∈ (fn.cseBefore b).table, e'.dst = e.dst) ∧
    (fn.cseHasSnapshots = false → ∀ label, ((fn.cseBefore i).snapshotTarget fn i).snaps label = none) := by
  by_cases hleaves : ∃ label, fn.cseLeaves i label
  swap
  · -- nothing is left here
    rw [snapshotTarget_of_not_leaves fun label hl => hleaves ⟨label, hl⟩]
    refine ⟨fun hslot => h.slots hslot, fun hon b label hb hl => h.left hon ?_ hl, h.off⟩
    rcases Nat.lt_succ_iff_lt_or_eq.mp hb with hlt | rfl
    · exact hlt
    · exact absurd ⟨label, hl⟩ hleaves
  obtain ⟨target, htarget⟩ := hleaves
  -- without snapshots the pass keeps no table for a label
  cases hon : fn.cseHasSnapshots with
  | false =>
    have hsame : (fn.cseBefore i).snapshotTarget fn i = fn.cseBefore i := by
      unfold CseState.snapshotTarget
      rw [if_neg (by simp [hon])]
    rw [hsame]
    exact ⟨fun hslot => h.slots hslot, fun hon' => absurd hon' Bool.false_ne_true, fun _ => h.off hon⟩
  | true =>
    rw [snapshotTarget_of_leaves hon htarget]
    have hopen : ∀ e ∈ (fn.cseBefore i).table, fn.EntryOf e ∧ ∃ b, fn.OpenAfter e.site b ∧ fn.cseLeaves b target := by
      intro e he
      obtain ⟨hentry, k, rfl, hk⟩ := h.table e he
      exact ⟨hentry, k + 1, hk.pass htarget.branch.2.1 (htarget.kills e.site), htarget⟩
    refine ⟨fun {label slot} hslot e he => ?_, fun _ b label hb hl => ?_, fun hoff => absurd hoff.symm Bool.false_ne_true⟩
    -- the first branch to a label stores the table, a later one intersects with what is stored
    · simp only [update_apply] at hslot
      split at hslot
      · rename_i heq
        rw [heq]
        cases hslot
        split at he
        · exact hopen e he
        · rename_i slot hslot
          exact h.slots hslot e (mem_loadTableIntersect.mp he).1
      · exact h.slots hslot e he
    · simp only [update_apply]
      have hbefore : ∀ {b}, b < i → fn.cseLeaves b label → ∃ slot, (fn.cseBefore i).snaps label = some slot ∧
          ∀ e ∈ slot, ∃ e' ∈ (fn.cseBefore b).table, e'.dst = e.dst := fun hb hl => h.left hon hb hl
      split
      · rename_i heq
        refine ⟨_, rfl, fun e he => ?_⟩
        rcases Nat.lt_succ_iff_lt_or_eq.mp hb with hlt | rfl
        · obtain ⟨slot, hslot, hall⟩ := hbefore hlt hl
          rw [heq] at hslot
          rw [hslot] at he
          exact hall e (mem_loadTableIntersect.mp he).1
        · split at he
          · exact ⟨e, he, rfl⟩
          · exact (mem_loadTableIntersect.mp he).2
      · rename_i hne
        rcases Nat.lt_succ_iff_lt_or_eq.mp hb with hlt | rfl
        · exact hbefore hlt hl
        · exact absurd (some.inj (hl.2.symm.trans htarget.2)) hne

/-- A load is kept, or becomes a move of the register that an entry of its address holds. -/
theorem cseReuseLoad_cases (i : Inst) (table : List AvailableLoad) :
    i.cseReuseLoad table = i ∨ ∃ e ∈ table, i.cseReuseLoad table = { i with a := .ofVreg e.dst, b := {} } ∧
      e.width = i.width ∧ e.isUnsigned = i.isUnsigned ∧ e.isFloat = i.isFloat ∧ e.dst ≠ i.dst.vreg ∧
      memSame e.mem i.a = true := by
  unfold Inst.cseReuseLoad
  split
  · exact Or.inl rfl
  · rename_i e hfind
    have hfound := find?_some hfind
    rw [decide_eq_true_eq] at hfound
    exact Or.inr ⟨e, List.mem_of_find?_eq_some hfind, rfl, hfound.1, hfound.2.1, hfound.2.2.1, hfound.2.2.2⟩

/-- Recording adds at most the load itself. -/
theorem mem_cseRecordLoad {i : Inst} {site : ℕ} {table : List AvailableLoad} (he : e ∈ cseRecordLoad i site table) :
    e ∈ table ∨ e = .ofLoad i site := by
  unfold cseRecordLoad at he
  split at he
  · exact Or.inl he
  · rwa [mem_append, mem_singleton] at he

/-- Past an instruction that is no label an entry stays, or it is the entry of the load there. -/
theorem Tracks.mem_succ (h : Tracks fn i (fn.cseBefore i)) (hop : (fn.insn i).op ≠ .label)
    (he : e ∈ (fn.cseBefore (i + 1)).table) :
    (e ∈ (fn.cseBefore i).table ∧ fn.cseKills e.site i = false) ∨
      ((fn.insn i).isPlainLoad = true ∧ e = .ofLoad (fn.insn i) i) := by
  rw [cseBefore, CseState.next] at he
  split at he
  · rename_i hnop
    exact Or.inl ⟨he, by simp [cseKills, hnop]⟩
  split at he
  · cases he
  rename_i hclobbers
  simp only [snapshotTarget_table] at he
  -- the entries that are kept
  have hkept : e ∈ (if (fn.insn i).dst.kind = .vreg then
      cseDropEntriesUsing (fn.insn i).dst.vreg (fn.cseBefore i).table else (fn.cseBefore i).table) →
      e ∈ (fn.cseBefore i).table ∧ fn.cseKills e.site i = false := by
    intro hmem
    split at hmem
    · unfold cseDropEntriesUsing at hmem
      rw [mem_filter, decide_eq_true_eq] at hmem
      obtain ⟨hmem, hdst, hbase, hindex⟩ := hmem
      have hentry := (h.table e hmem).1
      refine ⟨hmem, ?_⟩
      rw [hentry] at hdst hbase hindex
      simp only [AvailableLoad.ofLoad] at hdst hbase hindex
      simp [cseKills, hclobbers, Ne.symm hdst, Ne.symm hbase, Ne.symm hindex]
    · rename_i hkind
      exact ⟨hmem, by simp [cseKills, hclobbers, hkind]⟩
  by_cases hplain : (fn.insn i).isPlainLoad = true
  swap
  · rw [if_neg hplain, if_neg hplain] at he
    exact Or.inl (hkept he)
  rw [if_pos hplain] at he
  rcases cseReuseLoad_cases (fn.insn i) (fn.cseBefore i).table with hsame | ⟨e', -, hcopy, -⟩
  · rw [hsame, if_pos hplain] at he
    rcases mem_cseRecordLoad he with hmem | hnew
    · exact Or.inl (hkept hmem)
    · exact Or.inr ⟨hplain, hnew⟩
  · -- a copy is not recorded
    rw [hcopy, if_neg (by simp [Inst.isPlainLoad, Operand.ofVreg])] at he
    exact Or.inl (hkept he)

/-- What a label leaves of the tables. -/
theorem mem_succ_of_label (hop : (fn.insn i).op = .label) (he : e ∈ (fn.cseBefore (i + 1)).table) :
    (fn.csePredHi i = none ∧ e ∈ (fn.cseBefore i).table) ∨
      ((∀ hi, fn.csePredHi i = some hi → hi < i) ∧ ∃ slot, (fn.cseBefore i).snaps i = some slot ∧
        ((fn.cseFallsInto i = true ∧ e ∈ (fn.cseBefore i).table ∧ ∃ e' ∈ slot, e'.dst = e.dst) ∨
          (fn.cseFallsInto i = false ∧ e ∈ slot))) := by
  rw [cseBefore, CseState.next] at he
  rw [if_neg (by rw [hop]; decide)] at he
  split at he
  · cases he
  rw [snapshotTarget_of_not_leaves (fun label hl => hl.branch.2.1 hop)] at he
  simp only [CseState.tableAtLabel] at he
  split at he
  · rename_i hnone
    exact Or.inl ⟨hnone, he⟩
  rename_i hi hhi
  split at he
  · cases he
  rename_i hlt
  have hforward : ∀ hi', fn.csePredHi i = some hi' → hi' < i := by
    intro hi' hhi'
    rw [hhi] at hhi'
    cases hhi'
    omega
  split at he
  · cases he
  rename_i slot hslot
  refine Or.inr ⟨hforward, slot, hslot, ?_⟩
  split at he
  · rename_i hfalls
    exact Or.inl ⟨hfalls, mem_loadTableIntersect.mp he⟩
  · rename_i hfalls
    exact Or.inr ⟨Bool.eq_false_iff.mpr hfalls, he⟩

/-- A branch leaves the table as it is. -/
theorem cseLeaves.table (h : fn.cseLeaves b label) : (fn.cseBefore (b + 1)).table = (fn.cseBefore b).table := by
  obtain ⟨hnop, hlabel, hclobbers, hload, hkind⟩ := h.branch
  rw [cseBefore, CseState.next]
  simp [hnop, hlabel, hclobbers, hload, hkind, snapshotTarget_table]

/-- The state knows this before every instruction. -/
theorem tracks (fn : MirFunction) (i : ℕ) : Tracks fn i (fn.cseBefore i) := by
  -- on the instructions scanned
  induction i with
  | zero =>
    exact {
      table := fun e he => by cases he
      slots := fun h => by cases h
      left := fun _ _ _ hb => absurd hb (Nat.not_lt_zero _)
      off := fun _ _ => rfl }
  | succ i ih =>
    have htable : ∀ e ∈ (fn.cseBefore (i + 1)).table, fn.EntryOf e ∧ fn.OpenAfter e.site i := by
      intro e he
      by_cases hop : (fn.insn i).op = .label
      · rcases mem_succ_of_label hop he with ⟨hnone, hmem⟩ | ⟨hforward, slot, hslot, hcases⟩
        · obtain ⟨hentry, k, rfl, hk⟩ := ih.table e hmem
          exact ⟨hentry, hk.fall hop hnone⟩
        · rcases hcases with ⟨hfalls, hmem, e', he', -⟩ | ⟨-, hmem⟩
          · obtain ⟨hentry, k, rfl, hk⟩ := ih.table e hmem
            obtain ⟨-, b, -, hleaves⟩ := ih.slots hslot e' he'
            exact ⟨hentry, hk.join hop hfalls hleaves hforward⟩
          · obtain ⟨hentry, b, hb, hleaves⟩ := ih.slots hslot e hmem
            exact ⟨hentry, hb.branch hleaves hforward⟩
      · rcases ih.mem_succ hop he with ⟨hmem, hkills⟩ | ⟨hload, rfl⟩
        · obtain ⟨hentry, k, rfl, hk⟩ := ih.table e hmem
          exact ⟨hentry, hk.pass hop hkills⟩
        · exact ⟨rfl, .load hload⟩
    obtain ⟨hslots, hleft, hoff⟩ := ih.snapshot
    have hsnaps : (fn.cseBefore (i + 1)).snaps = ((fn.cseBefore i).snapshotTarget fn i).snaps := by
      rw [cseBefore, CseState.next]
      split
      · rename_i hnop
        rw [snapshotTarget_of_not_leaves fun label hl => hl.branch.1 hnop]
      split
      · rename_i hclobbers
        rw [snapshotTarget_of_not_leaves fun label hl => by simp [hl.branch.2.2.1] at hclobbers]
      split <;> rfl
    exact {
      table := fun e he => ⟨(htable e he).1, i, rfl, (htable e he).2⟩
      slots := fun h => hslots (by rwa [← hsnaps])
      left := fun hon b label hb hl => by
        rw [hsnaps]
        exact hleft hon hb hl
      off := fun h label => by
        rw [hsnaps]
        exact hoff h label }

end MirFunction

/-! ## What instructions leave alone -/

section Frame

variable {M V : Type} {H : Host M V} {fn : MirFunction} {s s' : State M V}

theorem Host.SameMemory.refl (H : Host M V) (m : M) : H.SameMemory m m := ⟨fun _ _ _ _ => rfl, fun _ => rfl⟩

namespace State

/-- Reading a register does not depend on the memory that is the same. -/
theorem read_sameMemory {m : M} (h : H.SameMemory s.machine m) (u : ℤ) :
    { s with machine := m }.read H fn u = s.read H fn u := by
  unfold read
  simp only [h.2]

section

variable {v : ℤ} (hv : (fn.vreg v).addressTaken = false)
include hv

/-- Writing a register of 64 bits without a home sets it. -/
theorem write_of_register (x : V) : s.write H fn v x = { s with regs := update s.regs v x } := by
  unfold write
  rw [hv, if_neg Bool.false_ne_true]

theorem read_write_self (x : V) : (s.write H fn v x).read H fn v = x := by
  rw [write_of_register hv, read, hv, if_neg Bool.false_ne_true]
  exact update_self ..

/-- Another register keeps its value. -/
theorem read_write_ne {u : ℤ} (hne : u ≠ v) (x : V) : (s.write H fn v x).read H fn u = s.read H fn u := by
  rw [write_of_register hv]
  unfold read
  simp only [update_of_ne hne]

end

/-- An instruction that writes no memory, and a register at most that is none. -/
theorem exec_frame (hlaw : H.Lawful) {i : Inst} (hexec : s.exec H fn i = some s')
    (hmemory : i.op ≠ .nop → i.op ≠ .label → i.writesMemory = false)
    (hregister : i.op ≠ .nop → i.op ≠ .label → i.dst.kind = .vreg → (fn.vreg i.dst.vreg).addressTaken = false) :
    H.SameMemory s.machine s'.machine ∧ ∀ u, (i.op ≠ .nop → i.op ≠ .label → i.dst.kind = .vreg → u ≠ i.dst.vreg) →
      s'.read H fn u = s.read H fn u := by
  unfold exec at hexec
  split at hexec
  · cases hexec
    exact ⟨Host.SameMemory.refl H _, fun _ _ => rfl⟩
  rename_i hop
  rw [not_or] at hop
  -- a register write does not touch the memory
  have hwrite : ∀ {x : V}, i.dst.kind = .vreg → H.SameMemory s.machine (s.write H fn i.dst.vreg x).machine ∧
      ∀ u, (i.op ≠ .nop → i.op ≠ .label → i.dst.kind = .vreg → u ≠ i.dst.vreg) →
        (s.write H fn i.dst.vreg x).read H fn u = s.read H fn u := by
    intro x hkind
    have hv := hregister hop.1 hop.2 hkind
    refine ⟨?_, fun u hu => read_write_ne hv (hu hop.1 hop.2 hkind) x⟩
    rw [write_of_register hv]
    exact Host.SameMemory.refl H _
  split at hexec
  · rename_i hload
    cases hexec
    simp only [Inst.isPlainLoad, decide_eq_true_eq] at hload
    exact hwrite hload.2.2
  split at hexec
  · rename_i hcopy
    cases hexec
    simp only [Inst.isCopy, decide_eq_true_eq] at hcopy
    exact hwrite hcopy.2.1
  rw [map_eq_some_iff] at hexec
  obtain ⟨⟨x, m⟩, hhost, hs'⟩ := hexec
  have hsame := hlaw.exec hhost (hmemory hop.1 hop.2)
  simp only at hs'
  split at hs'
  · rename_i hkind
    have hv := hregister hop.1 hop.2 hkind
    rw [← hs']
    refine ⟨?_, fun u hu => ?_⟩
    · rw [write_of_register hv]
      exact hsame
    · rw [read_write_ne hv (hu hop.1 hop.2 hkind), read_sameMemory hsame]
  · rw [← hs']
    exact ⟨hsame, fun u _ => read_sameMemory hsame u⟩

/-- A load from memory that is the same, at an address that is. -/
theorem loaded_congr {i : Inst} (hphys : i.a.physBaseValid = false) (hmem : H.SameMemory s.machine s'.machine)
    (hbase : s'.read H fn i.a.base = s.read H fn i.a.base) (hindex : s'.read H fn i.a.index = s.read H fn i.a.index) :
    s'.loaded H fn i = s.loaded H fn i := by
  have haddress : s'.address H fn i.a = s.address H fn i.a := by
    unfold address
    rw [hphys, hbase, hindex]
    rfl
  rw [loaded, loaded, haddress, hmem.1]

end State

/-- The register of a load holds what the load would give. -/
def Holds (H : Host M V) (fn : MirFunction) (s : State M V) (d : ℕ) : Prop :=
  s.read H fn (fn.insn d).dst.vreg = s.loaded H fn (fn.insn d)

variable {d i pc label : ℕ}

/-- A load that an instruction does not take out of the table. -/
theorem Holds.exec (hlaw : H.Lawful) (h : Holds H fn s d) (hphys : (fn.insn d).a.physBaseValid = false)
    (hkills : fn.cseKills d i = false) (hmissed : fn.missedWrite (fn.insn i) = false)
    (hexec : s.exec H fn (fn.insn i) = some s') : Holds H fn s' d := by
  simp only [MirFunction.cseKills, decide_eq_false_iff_not, not_and, not_or, Bool.not_eq_true] at hkills
  simp only [MirFunction.missedWrite, decide_eq_false_iff_not, not_and, not_or, Bool.not_eq_true,
    Bool.not_eq_false] at hmissed
  obtain ⟨hmemory, hreads⟩ := State.exec_frame hlaw hexec
    (fun hnop hlabel => by
      by_contra hwrites
      rw [Bool.not_eq_false] at hwrites
      have := (hmissed hnop hlabel).1 hwrites
      rw [(hkills hnop).1] at this
      cases this)
    (fun hnop hlabel hkind => (hmissed hnop hlabel).2 hkind)
  have hread : ∀ u, u = (fn.insn d).dst.vreg ∨ u = (fn.insn d).a.base ∨ u = (fn.insn d).a.index →
      s'.read H fn u = s.read H fn u := by
    intro u hu
    refine hreads u fun hnop _ hkind heq => ?_
    obtain ⟨hdst, hbase, hindex⟩ := (hkills hnop).2 hkind
    rcases hu with h | h | h
    · exact hdst (heq.symm.trans h)
    · exact hbase (heq.symm.trans h)
    · exact hindex (heq.symm.trans h)
  unfold Holds
  rw [hread _ (Or.inl rfl), State.loaded_congr hphys hmemory (hread _ (Or.inr (Or.inl rfl)))
    (hread _ (Or.inr (Or.inr rfl)))]
  exact h

/-- The load itself. -/
theorem holds_of_load (hsafe : fn.CseSafe) (hload : (fn.insn d).isPlainLoad = true) (hreused : fn.ReusedPast d d)
    (hexec : s.exec H fn (fn.insn d) = some s') : Holds H fn s' d := by
  obtain ⟨hv, hphys⟩ := hsafe.register hload hreused
  obtain ⟨hbase, hindex⟩ := hsafe.address hload hreused
  have hop : (fn.insn d).op = .mov := by
    simp only [Inst.isPlainLoad, decide_eq_true_eq] at hload
    exact hload.1
  unfold State.exec at hexec
  rw [if_neg (by simp [hop]), if_pos hload] at hexec
  cases hexec
  unfold Holds
  rw [State.read_write_self hv]
  refine (State.loaded_congr hphys ?_ (State.read_write_ne hv hbase.symm _) (State.read_write_ne hv hindex.symm _)).symm
  rw [State.write_of_register hv]
  exact Host.SameMemory.refl H _

/-! ## Along a run -/

/-- Only plain loads are open. -/
theorem MirFunction.OpenAfter.isPlainLoad (h : fn.OpenAfter d i) : (fn.insn d).isPlainLoad = true := by
  induction h with
  | load h => exact h
  | pass _ _ _ ih => exact ih
  | fall _ _ _ ih => exact ih
  | join _ _ _ _ _ ih => exact ih
  | branch _ _ _ ih => exact ih

/-- A load that is reused past an instruction, and not taken out there, is reused from it on. -/
theorem MirFunction.ReusedPast.from (h : fn.ReusedPast d i) (hop : (fn.insn i).op ≠ .label)
    (hkills : fn.cseKills d i = false) : fn.ReusedFrom d i := by
  rcases h with h | ⟨label, hleaves, h⟩
  · exact .pass hop hkills h
  · exact .branch hleaves h

/-- An open load that is reused further on is reused past itself. -/
theorem MirFunction.OpenAfter.reused (h : fn.OpenAfter d i) (hreused : fn.ReusedPast d i) : fn.ReusedPast d d := by
  -- back along the way that leads to `i`
  induction h with
  | load _ => exact hreused
  | pass _ hop hkills ih => exact ih (.inl (hreused.from hop hkills))
  | @fall i _ hop hnone ih =>
    refine ih (.inl (.label hop (fun hi hhi => ?_) ?_))
    · rw [hnone] at hhi
      cases hhi
    · exact hreused.resolve_right fun ⟨_, hleaves, _⟩ => hleaves.branch.2.1 hop
  | @join i b _ hop _ _ hforward ih =>
    refine ih (.inl (.label hop hforward ?_))
    exact hreused.resolve_right fun ⟨_, hleaves, _⟩ => hleaves.branch.2.1 hop
  | @branch b label _ hleaves hforward ih =>
    have hop : (fn.insn label).op = .label := (MirFunction.cseTarget_spec hleaves.2).2.2.1
    refine ih (.inr ⟨label, hleaves, .label hop hforward ?_⟩)
    exact hreused.resolve_right fun ⟨_, hleaves, _⟩ => hleaves.branch.2.1 hop

/-- What is reused in place of a load depends on the load alone, not on where it stands. -/
theorem MirFunction.ReusedFrom.congr {d' : ℕ} (h : fn.ReusedFrom d i) (hdst : (fn.insn d').dst.vreg = (fn.insn d).dst.vreg)
    (ha : (fn.insn d').a = (fn.insn d).a) (hwidth : (fn.insn d').width = (fn.insn d).width)
    (hunsigned : (fn.insn d').isUnsigned = (fn.insn d).isUnsigned)
    (hfloat : (fn.insn d').isFloat = (fn.insn d).isFloat) : fn.ReusedFrom d' i := by
  induction h with
  | reuse h =>
    refine .reuse ?_
    unfold MirFunction.cseReuses at h ⊢
    rwa [hdst, ha, hwidth, hunsigned, hfloat]
  | pass hop hkills _ ih =>
    refine .pass hop ?_ ih
    unfold MirFunction.cseKills at hkills ⊢
    rwa [hdst, ha]
  | label hop hforward _ ih => exact .label hop hforward ih
  | branch hleaves _ ih => exact .branch hleaves ih

/-- The table that the pass uses when it has come to an instruction. -/
def MirFunction.cseTableAt (fn : MirFunction) (pc : ℕ) : List AvailableLoad :=
  (if (fn.insn pc).op = .label then fn.cseBefore (pc + 1) else fn.cseBefore pc).table

/-- What holds when a run arrives at an instruction. An instruction that is no label is come to from the
one before it. -/
structure CseInv (H : Host M V) (fn : MirFunction) (pc : ℕ) (s : State M V) : Prop where
  entries : ∀ e ∈ fn.cseTableAt pc, fn.ReusedFrom e.site pc → Holds H fn s e.site
  before : (fn.insn pc).op ≠ .label → ∀ p, fn.prevRealInsn pc = some p →
    (fn.insn p).op ≠ .jmp ∧ (fn.insn p).op ≠ .ret

/-- The entries that an instruction leaves hold after it. -/
theorem CseInv.exec (hsafe : fn.CseSafe) (hlaw : H.Lawful) (h : CseInv H fn pc s)
    (hexec : s.exec H fn (fn.insn pc) = some s') :
    ∀ e ∈ (fn.cseBefore (pc + 1)).table, fn.ReusedPast e.site pc → Holds H fn s' e.site := by
  intro e he hreused
  have hentries := h.entries
  unfold MirFunction.cseTableAt at hentries
  by_cases hop : (fn.insn pc).op = .label
  · rw [if_pos hop] at hentries
    unfold State.exec at hexec
    rw [if_pos (Or.inr hop)] at hexec
    cases hexec
    have hforward : ∀ hi, fn.csePredHi pc = some hi → hi < pc := by
      rcases MirFunction.mem_succ_of_label hop he with ⟨hnone, -⟩ | ⟨hforward, -⟩
      · intro hi hhi
        rw [hnone] at hhi
        cases hhi
      · exact hforward
    have hpast := hreused.resolve_right fun ⟨_, hleaves, _⟩ => hleaves.branch.2.1 hop
    exact hentries e he (.label hop hforward hpast)
  rw [if_neg hop] at hentries
  rcases (fn.tracks pc).mem_succ hop he with ⟨hmem, hkills⟩ | ⟨hload, rfl⟩
  · obtain ⟨-, k, rfl, hk⟩ := (fn.tracks pc).table e hmem
    have hfrom := hreused.from hop hkills
    have hregister := hsafe.register hk.isPlainLoad (hk.reused (.inl hfrom))
    exact (hentries e hmem hfrom).exec hlaw hregister.2 hkills (hsafe.memory hk hreused) hexec
  · exact holds_of_load hsafe hload hreused hexec

/-- Falling into the next instruction. -/
theorem CseInv.fall (hentries : ∀ e ∈ (fn.cseBefore (pc + 1)).table, fn.ReusedPast e.site pc → Holds H fn s' e.site)
    (h : CseInv H fn pc s) (hfalls : fn.falls pc = true) : CseInv H fn (pc + 1) s' := by
  have hbefore : ∀ p, fn.prevRealInsn (pc + 1) = some p → (fn.insn p).op ≠ .jmp ∧ (fn.insn p).op ≠ .ret := by
    intro p hp
    unfold MirFunction.prevRealInsn at hp
    split at hp
    · cases hp
      simp only [MirFunction.falls, decide_eq_true_eq, not_or] at hfalls
      exact ⟨hfalls.1, hfalls.2.2.1⟩
    · rename_i hnop
      rw [not_not] at hnop
      exact h.before (by rw [hnop]; decide) p hp
  refine ⟨fun e he hreused => ?_, fun _ => hbefore⟩
  unfold MirFunction.cseTableAt at he
  split at he
  swap
  · exact hentries e he (.inl hreused)
  rename_i hop
  rcases MirFunction.mem_succ_of_label hop he with ⟨-, hmem⟩ | ⟨hforward, slot, hslot, hcases⟩
  · exact hentries e hmem (.inl hreused)
  rcases hcases with ⟨-, hmem, -⟩ | ⟨hnot, hmem⟩
  · exact hentries e hmem (.inl hreused)
  · -- a branch comes before the label, so an instruction falls into it
    obtain ⟨-, b, -, hleaves⟩ := (fn.tracks (pc + 1)).slots hslot e hmem
    have hb : b < pc + 1 := (MirFunction.cseTarget_spec hleaves.2).2.1
    obtain ⟨p, hp⟩ := isSome_iff_exists.mp (MirFunction.prevRealInsn_isSome hb hleaves.branch.1)
    simp [MirFunction.cseFallsInto, hp, hbefore p hp] at hnot

/-- A label that a table or a bit test goes to. -/
theorem CseInv.indirect (hsafe : fn.CseSafe) (hlabel : (fn.insn label).op = .label)
    (hop : (fn.insn pc).op = .jmpTable ∨ (fn.insn pc).op = .bt) (htarget : some label ∈ fn.targets pc) :
    CseInv H fn label s' := by
  refine ⟨fun e he hreused => ?_, fun hnot => absurd hlabel hnot⟩
  unfold MirFunction.cseTableAt at he
  rw [if_pos hlabel] at he
  obtain ⟨-, k, hk, hopen⟩ := (fn.tracks (label + 1)).table e he
  obtain rfl : label = k := by omega
  exact absurd hreused (hsafe.tables hop htarget hopen)

/-- A label that a branch goes to. -/
theorem CseInv.branch (hsafe : fn.CseSafe) (hpc : pc < fn.insnCount)
    (hentries : ∀ e ∈ (fn.cseBefore (pc + 1)).table, fn.ReusedPast e.site pc → Holds H fn s' e.site)
    (hsnapshots : (fn.insn pc).op.cseSnapshotsAt = true) (htarget : fn.cseTarget 0 pc = some label) :
    CseInv H fn label s' := by
  obtain ⟨hkind, -, hlabel, -⟩ := MirFunction.cseTarget_spec htarget
  refine ⟨fun e he hreused => ?_, fun hnot => absurd hlabel hnot⟩
  unfold MirFunction.cseTableAt at he
  rw [if_pos hlabel] at he
  obtain ⟨hentry, k, hk, hopen⟩ := (fn.tracks (label + 1)).table e he
  obtain rfl : label = k := by omega
  have hbranch : (fn.insn pc).op.cseIsBranch = true := by
    simp only [Opcode.cseSnapshotsAt, Opcode.cseIsBranch, mem_cons, not_mem_nil, or_false,
      decide_eq_true_eq] at hsnapshots ⊢
    tauto
  obtain ⟨hi, hhi, hle⟩ := MirFunction.le_csePredHi hpc hbranch htarget
  rcases MirFunction.mem_succ_of_label hlabel he with ⟨hnone, -⟩ | ⟨hforward, slot, hslot, hcases⟩
  · rw [hhi] at hnone
    cases hnone
  have hlt := hforward hi hhi
  have hleaves : fn.cseLeaves pc label := ⟨hsnapshots, MirFunction.cseTarget_mono htarget (by omega)⟩
  have hon : fn.cseHasSnapshots = true := by
    by_contra hoff
    rw [(fn.tracks label).off (Bool.eq_false_iff.mpr hoff) label] at hslot
    cases hslot
  -- the table of this branch has an entry for the same register
  obtain ⟨slot', hslot', hall⟩ := (fn.tracks label).left hon (show pc < label by omega) hleaves
  obtain rfl : slot = slot' := some.inj (hslot.symm.trans hslot')
  have hcounterpart : ∃ e' ∈ (fn.cseBefore pc).table, e'.dst = e.dst := by
    rcases hcases with ⟨-, -, e', he', hdst⟩ | ⟨-, hmem⟩
    · obtain ⟨e'', he'', hdst'⟩ := hall e' he'
      exact ⟨e'', he'', hdst'.trans hdst⟩
    · exact hall e hmem
  obtain ⟨e', he', hdst⟩ := hcounterpart
  obtain ⟨hentry', k, rfl, hk'⟩ := (fn.tracks pc).table e' he'
  have hopen' : fn.OpenAfter e'.site label :=
    (hk'.pass hleaves.branch.2.1 (hleaves.kills e'.site)).branch hleaves hforward
  have hregister : (fn.insn e'.site).dst.vreg = (fn.insn e.site).dst.vreg := by
    rw [hentry, hentry'] at hdst
    exact hdst
  obtain ⟨hmem, hwidth, hunsigned, hfloat⟩ := hsafe.join hlabel hopen hreused hopen' hregister
  have hreused' := hreused.congr hregister hmem hwidth hunsigned hfloat
  have hholds := hentries e' (by rwa [hleaves.table]) (.inr ⟨label, hleaves, hreused'⟩)
  unfold Holds State.loaded at hholds ⊢
  rwa [hregister, hmem, hwidth, hunsigned, hfloat] at hholds

/-- On every control path the entries of the table hold what would be loaded. -/
theorem entries_valid (hsafe : fn.CseSafe) (hlaw : H.Lawful) {start s : State M V} (h : Arrives H fn start pc s) :
    CseInv H fn pc s := by
  -- on the arrival at `pc`
  induction h with
  | entry =>
    refine ⟨fun e he _ => ?_, fun _ p hp => by cases hp⟩
    unfold MirFunction.cseTableAt at he
    split at he
    · -- nothing is left for a label at the entry
      rename_i hlabel
      rcases MirFunction.mem_succ_of_label hlabel he with ⟨-, hmem⟩ | ⟨-, slot, hslot, -⟩
      · cases hmem
      · cases hslot
    · cases he
  | @step pc pc' s s' _ hexec hnext ih =>
    have hpc := MirFunction.lt_of_mem_next hnext
    have hentries := ih.exec hsafe hlaw hexec
    -- to a label, where the snapshot holds, or to the next instruction
    rcases MirFunction.mem_next.mp hnext with htarget | ⟨hfalls, _, rfl⟩
    · have hfind : ∀ {name}, fn.labelFind name = some pc' → (fn.insn pc').op = .label ∧
          ∃ text, name = some text ∧ fn.cseFindLabel 0 text = some pc' := by
        intro name hname
        cases name with
        | none => cases hname
        | some text =>
          rw [MirFunction.labelFind_eq] at hname
          have hlabel := (MirFunction.cseFindLabel_eq_some.mp hname).1.2.1
          simp only [Inst.isLabel, decide_eq_true_eq] at hlabel
          exact ⟨hlabel.1, text, rfl, hname⟩
      have hcases := htarget
      unfold MirFunction.targets at hcases
      simp only at hcases
      split at hcases
      · rename_i hop
        obtain ⟨hlabel, text, hsym, hlabelFind⟩ := hfind (mem_singleton.mp hcases).symm
        by_cases hbt : (fn.insn pc).op = .bt
        · exact CseInv.indirect hsafe hlabel (Or.inr hbt) htarget
        have hsnapshots : (fn.insn pc).op.cseSnapshotsAt = true := by
          simp only [Inst.isCondBranch, decide_eq_true_eq] at hop
          simp only [Opcode.cseSnapshotsAt, mem_cons, not_mem_nil, or_false, decide_eq_true_eq]
          tauto
        have hkind := hsafe.labels (b := pc) (by
          simp only [Opcode.cseSnapshotsAt, Opcode.cseIsBranch, mem_cons, not_mem_nil, or_false,
            decide_eq_true_eq] at hsnapshots ⊢
          tauto)
        refine CseInv.branch hsafe hpc hentries hsnapshots ?_
        unfold MirFunction.cseTarget
        rw [if_pos hkind, hsym, bind_some]
        exact hlabelFind
      split at hcases
      · rename_i hop
        obtain ⟨name, -, hname⟩ := List.mem_map.mp hcases
        exact CseInv.indirect hsafe (hfind hname).1 (Or.inl hop) htarget
      · cases hcases
    · exact CseInv.fall hentries ih hfalls

/-! ## The pass -/

namespace MirFunction

/-- A replaced load keeps its opcode and its destination. -/
theorem cseInsn_control (fn : MirFunction) (i : ℕ) (insn : Inst) :
    (fn.cseInsn i insn).op = insn.op ∧ (fn.cseInsn i insn).dst = insn.dst ∧
      (fn.cseInsn i insn).table = insn.table := by
  unfold cseInsn
  split
  · rcases cseReuseLoad_cases insn (fn.cseBefore i).table with h | ⟨e, -, h, -⟩ <;> rw [h] <;> exact ⟨rfl, rfl, rfl⟩
  · exact ⟨rfl, rfl, rfl⟩

/-- The instructions of the result. -/
theorem insn_cseLoads (h : 2 ≤ fn.insnCount) (i : ℕ) : fn.cseLoads.insn i = fn.cseInsn i (fn.insn i) := by
  unfold cseLoads
  rw [if_neg (by omega)]
  unfold insn
  by_cases hi : i < fn.insns.length
  · rw [getD_eq_getElem _ _ (by simpa using hi), getD_eq_getElem _ _ hi, getElem_mapIdx]
  · rw [getD_eq_default _ _ (by simpa using hi), getD_eq_default _ _ (by omega)]
    rfl

/-- Functions whose instructions go to the same places. -/
theorem next_congr {fn' : MirFunction} (hcount : fn'.insnCount = fn.insnCount)
    (hinsn : ∀ i, (fn'.insn i).op = (fn.insn i).op ∧ (fn'.insn i).dst = (fn.insn i).dst ∧
      (fn'.insn i).table = (fn.insn i).table) (pc : ℕ) : fn'.next pc = fn.next pc := by
  have hlabel : ∀ name, fn'.labelFind name = fn.labelFind name := by
    intro name
    cases name with
    | none => rfl
    | some text =>
      rw [labelFind_eq, labelFind_eq]
      unfold cseFindLabel
      rw [hcount]
      congr 1
      funext d
      rw [decide_eq_decide, Inst.isLabel, Inst.isLabel, (hinsn d).1, (hinsn d).2.1]
  have hfind : fn'.labelFind = fn.labelFind := funext hlabel
  have htargets : fn'.targets pc = fn.targets pc := by
    unfold targets
    simp only [Inst.isCondBranch, hfind, (hinsn pc).1, (hinsn pc).2.1, (hinsn pc).2.2]
    congr
  have hfalls : fn'.falls pc = fn.falls pc := by
    unfold falls
    simp only [(hinsn pc).1]
  unfold next
  rw [htargets, hfalls, hcount]

theorem next_cseLoads (fn : MirFunction) (pc : ℕ) : fn.cseLoads.next pc = fn.next pc := by
  by_cases h : fn.insnCount < 2
  · unfold cseLoads
    rw [if_pos h]
  refine next_congr ?_ (fun i => ?_) pc
  · unfold cseLoads
    rw [if_neg h]
    exact length_mapIdx
  · rw [insn_cseLoads (by omega)]
    exact fn.cseInsn_control i _

end MirFunction

/-- The instruction at an index, with the copy of a register in place of its load. -/
def CopyOf (fn : MirFunction) (pc : ℕ) (v : ℤ) (i : Inst) : Prop :=
  (fn.insn pc).isPlainLoad = true ∧ i = { fn.insn pc with a := .ofVreg v, b := {} }

/-- A load that is replaced gives what the register holds. -/
theorem CseInv.replaced (hsafe : fn.CseSafe) {pc : ℕ} (h : CseInv H fn pc s)
    (hne : fn.cseLoads.insn pc ≠ fn.insn pc) :
    ∃ v, CopyOf fn pc v (fn.cseLoads.insn pc) ∧ s.read H fn v = s.loaded H fn (fn.insn pc) := by
  by_cases hcount : fn.insnCount < 2
  · unfold MirFunction.cseLoads at hne
    rw [if_pos hcount] at hne
    exact absurd rfl hne
  rw [MirFunction.insn_cseLoads (by omega)] at hne ⊢
  unfold MirFunction.cseInsn at hne ⊢
  split at hne
  swap
  · exact absurd rfl hne
  rename_i hload
  rw [if_pos hload]
  -- the load was replaced, so the table held an entry of the same address
  rcases MirFunction.cseReuseLoad_cases (fn.insn pc) (fn.cseBefore pc).table with hsame | ⟨e, he, hcopy, hrest⟩
  · exact absurd hsame hne
  obtain ⟨hwidth, hunsigned, hfloat, hdst, hmem⟩ := hrest
  have hop : (fn.insn pc).op ≠ .label := by
    simp only [Inst.isPlainLoad, decide_eq_true_eq] at hload
    rw [hload.1]
    decide
  obtain ⟨hentry, k, rfl, hk⟩ := (fn.tracks pc).table e he
  have htable : e ∈ fn.cseTableAt (k + 1) := by rwa [MirFunction.cseTableAt, if_neg hop]
  refine ⟨e.dst, ⟨hload, hcopy⟩, ?_⟩
  rw [hentry] at hwidth hunsigned hfloat hdst hmem ⊢
  simp only [AvailableLoad.ofLoad] at hwidth hunsigned hfloat hdst hmem ⊢
  have hreuses : fn.cseReuses e.site (k + 1) = true := by
    rw [MirFunction.cseReuses, decide_eq_true_eq]
    exact ⟨hload, hwidth, hunsigned, hfloat, hdst, hmem⟩
  -- the entry still holds here, and what it reads is what the load would read
  have hholds := h.entries e htable (.reuse hreuses)
  obtain ⟨hvalid, hhome⟩ := hsafe.homes hk hreuses
  simp only [memSame, decide_eq_true_eq] at hmem
  obtain ⟨hbase, hindex, hscale, hdisp, hphys, hphysBase⟩ := hmem
  rw [hholds]
  unfold State.loaded State.address
  rw [hwidth, hunsigned, hfloat, hbase, hindex, hscale, hdisp, hphys, hphysBase, hvalid, hhome]

/-- An instruction of the new function does what the old one does. -/
theorem CseInv.exec_cseLoads (hsafe : fn.CseSafe) {pc : ℕ} (h : CseInv H fn pc s) :
    s.exec H fn.cseLoads (fn.cseLoads.insn pc) = s.exec H fn (fn.insn pc) := by
  have hregs : s.exec H fn.cseLoads (fn.cseLoads.insn pc) = s.exec H fn (fn.cseLoads.insn pc) := by
    unfold MirFunction.cseLoads
    split <;> rfl
  rw [hregs]
  by_cases hne : fn.cseLoads.insn pc = fn.insn pc
  · rw [hne]
  obtain ⟨v, ⟨hload, hcopy⟩, hvalue⟩ := h.replaced hsafe hne
  have hshape := hload
  simp only [Inst.isPlainLoad, decide_eq_true_eq] at hshape
  rw [hcopy]
  unfold State.exec
  simp [hshape, Inst.isPlainLoad, Inst.isCopy, Operand.ofVreg, hvalue]

/-- The pass replaces a load only by a register that holds what it would load, on every control path, and
changes no run. -/
theorem cseLoads_preserves (H : Host M V) (hlaw : H.Lawful) (fn : MirFunction) (hsafe : fn.CseSafe)
    (start : State M V) :
    (∀ pc s, Arrives H fn start pc s → fn.cseLoads.insn pc ≠ fn.insn pc →
      ∃ v, CopyOf fn pc v (fn.cseLoads.insn pc) ∧ s.read H fn v = s.loaded H fn (fn.insn pc)) ∧
    ∀ pc s, Arrives H fn.cseLoads start pc s ↔ Arrives H fn start pc s := by
  refine ⟨fun pc s hs hne => (entries_valid hsafe hlaw hs).replaced hsafe hne, fun pc s => ⟨fun h => ?_, fun h => ?_⟩⟩
  · induction h with
    | entry => exact .entry
    | step _ hexec hnext ih =>
      rw [(entries_valid hsafe hlaw ih).exec_cseLoads hsafe] at hexec
      rw [MirFunction.next_cseLoads] at hnext
      exact ih.step hexec hnext
  · induction h with
    | entry => exact .entry
    | step hs hexec hnext ih =>
      rw [← (entries_valid hsafe hlaw hs).exec_cseLoads hsafe] at hexec
      rw [← MirFunction.next_cseLoads] at hnext
      exact ih.step hexec hnext

end Frame

/-! ## Examples -/

/-- A memory of one word, which a block move fills with sevens. -/
def oneWord : Host (BitVec 64) (BitVec 64) where
  word := id
  load := fun m _ _ _ _ => m
  readPhys := fun _ _ => 0
  homeAddress := fun _ => 0
  readHome := fun _ _ => 0
  writeHome := fun m _ _ => m
  exec := fun m i _ => some (0, if i.op = .repMovsb then 7 else m)

/-- The memory of one word meets what is asked of a host. -/
theorem oneWord_lawful : oneWord.Lawful := by
  refine ⟨fun {m i values x m'} hexec hwrites => ?_⟩
  have hop : i.op ≠ .repMovsb := by
    intro hop
    simp [Inst.writesMemory, hop] at hwrites
  simp only [oneWord, if_neg hop, some.injEq, Prod.mk.injEq] at hexec
  rw [← hexec.2]
  exact Host.SameMemory.refl oneWord m

/-- What holds of every instruction, and of the `MIR_NOP` past the end. -/
theorem MirFunction.forall_insn {fn : MirFunction} {P : Inst → Prop} (h : ∀ i ∈ fn.insns, P i) (hnop : P {}) (k : ℕ) :
    P (fn.insn k) := by
  unfold insn
  by_cases hk : k < fn.insns.length
  · rw [getD_eq_getElem _ _ hk]
    exact h _ (getElem_mem hk)
  · rw [getD_eq_default _ _ (by omega)]
    exact hnop

/-- The address in a register. -/
def atRegister (v : ℤ) : Operand := { kind := .mem, base := v }

/-- A load before a branch, one behind it and one where the two ways meet. -/
def threeLoads : MirFunction where
  vregs := [{}, {}, {}, {}]
  insns := [
    { op := .mov, dst := .ofVreg 1, a := atRegister 0 },
    { op := .cmpbr, dst := { kind := .label, sym := some "end" }, a := .ofVreg 1, b := .ofVreg 0 },
    { op := .mov, dst := .ofVreg 2, a := atRegister 0 },
    { op := .label, dst := { kind := .label, sym := some "end" } },
    { op := .mov, dst := .ofVreg 3, a := atRegister 0 },
    { op := .ret }]

/-- The loads of the example. -/
theorem threeLoads_load {d : ℕ} (h : (threeLoads.insn d).isPlainLoad = true) : d = 0 ∨ d = 2 ∨ d = 4 := by
  by_cases hd : d < 6
  · interval_cases d <;> revert h <;> decide
  · rw [MirFunction.insn_of_le (show threeLoads.insnCount ≤ d from Nat.le_of_not_lt hd)] at h
    cases h

theorem threeLoads_safe : threeLoads.CseSafe where
  join := by
    intro label d d' _ hd _ hd' _
    rcases threeLoads_load hd.isPlainLoad with rfl | rfl | rfl <;>
      rcases threeLoads_load hd'.isPlainLoad with rfl | rfl | rfl <;>
      exact ⟨rfl, rfl, rfl, rfl⟩
  tables := by
    intro b label d hop
    exact absurd hop (MirFunction.forall_insn (P := fun i => ¬ (i.op = .jmpTable ∨ i.op = .bt)) (by decide)
      (by decide) b)
  address := by
    intro d hd _
    rcases threeLoads_load hd with rfl | rfl | rfl <;> decide
  register := by
    intro d hd _
    rcases threeLoads_load hd with rfl | rfl | rfl <;> decide
  memory := by
    intro d i _ _
    exact MirFunction.forall_insn (P := fun i => threeLoads.missedWrite i = false) (by decide) (by decide) (i + 1)
  homes := by
    intro d i hd hreuses
    rw [MirFunction.cseReuses, decide_eq_true_eq] at hreuses
    have hload := hreuses.1
    rcases threeLoads_load hd.isPlainLoad with rfl | rfl | rfl <;>
      rcases threeLoads_load hload with h | h | h <;> rw [h] <;> exact ⟨rfl, rfl⟩
  labels := by
    intro b hop
    exact MirFunction.forall_insn (P := fun i => i.op.cseIsBranch = true → i.dst.kind = .label) (by decide) (by decide)
      b hop

theorem cseLoads_preserves_threeLoads :
    threeLoads.cseLoads.insn 2 = { op := .mov, dst := .ofVreg 2, a := .ofVreg 1 } ∧
      threeLoads.cseLoads.insn 4 = { op := .mov, dst := .ofVreg 3, a := .ofVreg 1 } ∧
      ∀ start pc s, Arrives oneWord threeLoads.cseLoads start pc s ↔ Arrives oneWord threeLoads start pc s :=
  ⟨by decide, by decide, fun start =>
    (cseLoads_preserves oneWord oneWord_lawful threeLoads threeLoads_safe start).2⟩

/-- Two loads with a block move between them. -/
def movesBlock : MirFunction where
  vregs := [{}, {}, {}]
  insns := [
    { op := .mov, dst := .ofVreg 1, a := atRegister 0 },
    { op := .repMovsb, dst := { kind := .symbol, sym := some "memcpy" } },
    { op := .mov, dst := .ofVreg 2, a := atRegister 0 },
    { op := .ret }]

/-- The second load is replaced by the register of the first, which holds what was there before the move. -/
theorem cseLoads_misses_block_move :
    ¬ ∀ start pc s, Arrives oneWord movesBlock start pc s → movesBlock.cseLoads.insn pc ≠ movesBlock.insn pc →
      ∃ v, CopyOf movesBlock pc v (movesBlock.cseLoads.insn pc) ∧
        s.read oneWord movesBlock v = s.loaded oneWord movesBlock (movesBlock.insn pc) := by
  intro h
  let start : State (BitVec 64) (BitVec 64) := { regs := fun _ => 0, machine := 0 }
  have hfirst : Arrives oneWord movesBlock start 1 (start.write oneWord movesBlock 1 0) :=
    Arrives.entry.step rfl (by decide)
  have hsecond : Arrives oneWord movesBlock start 2 { start.write oneWord movesBlock 1 0 with machine := 7 } :=
    hfirst.step rfl (by decide)
  obtain ⟨v, ⟨-, hcopy⟩, hvalue⟩ := h start 2 _ hsecond (by decide)
  obtain rfl : v = 1 := by
    have hinsn : movesBlock.cseLoads.insn 2 = { op := .mov, dst := .ofVreg 2, a := .ofVreg 1 } := by decide
    rw [hinsn] at hcopy
    exact (congrArg (fun i : Inst => i.a.vreg) hcopy).symm
  exact absurd hvalue (by decide)

end Mettle.Mir

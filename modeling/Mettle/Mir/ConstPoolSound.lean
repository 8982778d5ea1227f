import Mettle.Mir.ConstPool

/-!
# What placing the pool keeps

A moved constant is defined at its uses exactly if no control path goes around the insert point: jumps into the range
in a way that the checks of the pass do not look at, and on to a use.
-/

namespace Mettle.Mir

open Relation List Option

namespace MirFunction

variable (fn : MirFunction)

/-! ## Control paths -/

/-- A transfer from an instruction that does not define a register. -/
def StepsUnset (v : ℤ) (i j : ℕ) : Prop := j ∈ fn.next i ∧ v ≠ (fn.insn i).defs

/-- Every use of a register is reached only after a definition of it. -/
def DefinedAtUses (v : ℤ) : Prop := ∀ u, ReflTransGen (fn.StepsUnset v) 0 u → v ∉ (fn.insn u).uses

/-- A transfer that does not fall into an instruction. -/
def StepsAround (insert i j : ℕ) : Prop :=
  some j ∈ fn.targets i ∨ fn.falls i = true ∧ i + 1 < fn.insnCount ∧ j = i + 1 ∧ j ≠ insert

/-- Some control path from the entry goes around the insert point. -/
def Around (insert i : ℕ) : Prop := insert ≠ 0 ∧ ReflTransGen (fn.StepsAround insert) 0 i

/-- A jump that `mir_place_const_pool` does not look at enters the range of a move around its insert point, and a use
can be reached from there. -/
def EntersUnset (m : ConstMove) (v : ℤ) : Prop :=
  ∃ p q u, fn.Around m.insert p ∧ some q ∈ fn.targets p ∧ ¬ (m.insert ≤ p ∧ p ≤ m.loopEnd) ∧
    (m.insert ≤ q ∧ q ≤ m.loopEnd) ∧ (q = m.insert ∨ (fn.insn p).isCheckedJump = false) ∧
    ReflTransGen (fn.StepsAround m.insert) q u ∧ v ∈ (fn.insn u).uses

/-- The registers of the pooled constants. -/
def pool : List ℤ := fn.iconsts ++ fn.fconsts

/-- Each pooled constant has one definition, which reads no register and precedes all its uses on every path. -/
structure PoolDefined : Prop where
  once : ∀ v ∈ fn.pool, ∃ source, ∀ k, (fn.insn k).defs = v ↔ k = source
  reads : ∀ v ∈ fn.pool, ∀ k, (fn.insn k).defs = v → (fn.insn k).uses = []
  defined : ∀ v ∈ fn.pool, fn.DefinedAtUses v

variable {fn} {moves : List ConstMove}

/-! ## Runs of the result -/

section

variable {v : ℤ} {A : ℕ → Prop}

/-- Control arrives at an index from `A`, or begins there. -/
def ArrivesAt (fn : MirFunction) (moves : List ConstMove) (v : ℤ) (A : ℕ → Prop) (i : ℕ) : Prop :=
  i = 0 ∨ ∃ j, i = j + 1 ∧ A j ∧ fn.falls j = true ∧ (fn.Kept moves j → v ≠ (fn.insn j).defs)

/-- A position of the result that control reaches without a definition of `v`, if `A` are the indices it reaches
before. -/
inductive Arrived (fn : MirFunction) (moves : List ConstMove) (v : ℤ) (A : ℕ → Prop) : ℕ → Prop
  | place {i : ℕ} : fn.Kept moves i → A i → Arrived fn moves v A (fn.place moves i)
  | inserted {i k : ℕ} : i ≤ fn.insnCount → k < (insertedAt moves i).length → fn.ArrivesAt moves v A i →
    (∀ s ∈ (insertedAt moves i).take k, v ≠ (fn.insn s).defs) → Arrived fn moves v A (fn.slotAt moves i + k)
  | past {p : ℕ} : (fn.withMoves moves).insnCount ≤ p → Arrived fn moves v A p

variable (hmoves : fn.MovesCopies moves)
  (hinto : ∀ i, i < fn.insnCount → fn.ArrivesAt moves v A i → (∀ s ∈ insertedAt moves i, v ≠ (fn.insn s).defs) → A i)
  (hjump : ∀ i j, A i → v ≠ (fn.insn i).defs → some j ∈ fn.targets i → A j)

include hmoves hinto

/-- Control that arrives at an index goes through the inserted definitions to the next instruction that is kept. -/
theorem Arrived.settle {i k : ℕ} (hi : i ≤ fn.insnCount) (hk : k ≤ (insertedAt moves i).length)
    (harrives : fn.ArrivesAt moves v A i) (hunset : ∀ s ∈ (insertedAt moves i).take k, v ≠ (fn.insn s).defs) :
    Arrived fn moves v A (fn.slotAt moves i + k) := by
  induction hn : fn.insnCount - i generalizing i k with
  | zero =>
    obtain rfl : i = fn.insnCount := by omega
    rcases Nat.lt_or_eq_of_le hk with hlt | rfl
    · exact .inserted hi hlt harrives hunset
    · exact .past (fn.place_insnCount moves).ge
  | succ n ih =>
    rcases Nat.lt_or_eq_of_le hk with hlt | rfl
    · exact .inserted hi hlt harrives hunset
    rw [take_length] at hunset
    have hA := hinto i (by omega) harrives hunset
    by_cases hkept : fn.Kept moves i
    · exact .place hkept hA
    · -- the instruction moved: control falls through where it was
      have hin : i ∈ moves.map ConstMove.source := by
        by_contra hnot
        exact hkept ⟨by omega, hnot⟩
      obtain ⟨m, hm, hsource⟩ := List.mem_map.mp hin
      have hfalls : fn.falls i = true := hsource ▸ falls_of_mov (hmoves m hm)
      have hnext := ih (i := i + 1) (k := 0) (by omega) (Nat.zero_le _)
        (.inr ⟨i, rfl, hA, hfalls, fun h => absurd h hkept⟩) (by simp) (by omega)
      rw [Nat.add_zero, slotAt_succ_of_not_kept hkept] at hnext
      exact hnext

include hjump

/-- A step after the moves is one before them, as far as the register is concerned. -/
theorem Arrived.step {p q : ℕ} (h : Arrived fn moves v A p) (hstep : (fn.withMoves moves).StepsUnset v p q) :
    Arrived fn moves v A q := by
  obtain ⟨hnext, hunset⟩ := hstep
  cases h with
  | @place i hkept hA =>
    rw [hkept.insn_place] at hunset
    rcases mem_next.mp hnext with htarget | ⟨hfalls, _, rfl⟩
    · rw [hkept.targets_place hmoves] at htarget
      obtain ⟨o, ho, heq⟩ := List.mem_map.mp htarget
      obtain ⟨j, rfl, rfl⟩ := map_eq_some_iff.mp heq
      exact .place (kept_of_target hmoves ho) (hjump i j hA hunset ho)
    · have hfalls' : fn.falls i = true := by
        rw [falls, hkept.insn_place] at hfalls
        exact hfalls
      have := Arrived.settle hmoves hinto hkept.1 (Nat.zero_le _) (.inr ⟨i, rfl, hA, hfalls', fun _ => hunset⟩) (by simp)
      rw [Nat.add_zero, slotAt_succ_of_kept hkept] at this
      exact this
  | @inserted i k hi hk harrives htaken =>
    obtain ⟨m, hm, _, hget, hinsn⟩ := insn_inserted fn hi hk
    have hmov : ((fn.withMoves moves).insn (fn.slotAt moves i + k)).op = .mov := hinsn ▸ hmoves m hm
    rcases mem_next.mp hnext with htarget | ⟨_, _, rfl⟩
    · rw [targets_of_mov hmov] at htarget
      cases htarget
    · rw [Nat.add_assoc]
      apply Arrived.settle hmoves hinto hi hk harrives
      intro s hs
      rw [take_add_one, hget] at hs
      rcases mem_append.mp hs with hs | hs
      · exact htaken s hs
      · obtain rfl := mem_singleton.mp hs
        rw [hinsn] at hunset
        exact hunset
  | past hle => exact absurd (lt_of_mem_next hnext) (Nat.not_lt.mpr hle)

/-- Where a use is reached in the result without a definition, it is in `A`. -/
theorem exists_use_of_reached {u : ℕ} (hreached : ReflTransGen ((fn.withMoves moves).StepsUnset v) 0 u)
    (huse : v ∈ ((fn.withMoves moves).insn u).uses) (hreads : ∀ m ∈ moves, (fn.insn m.source).uses = []) :
    ∃ i, A i ∧ v ∈ (fn.insn i).uses := by
  have harrived : Arrived fn moves v A u := by
    clear huse
    induction hreached with
    | refl => exact Arrived.settle hmoves hinto (Nat.zero_le _) (Nat.zero_le _) (.inl rfl) (by simp)
    | tail _ hstep ih => exact Arrived.step hmoves hinto hjump ih hstep
  cases harrived with
  | @place i hkept hA =>
    rw [hkept.insn_place] at huse
    exact ⟨i, hA, huse⟩
  | @inserted i k hi hk _ _ =>
    obtain ⟨m, hm, _, _, hinsn⟩ := insn_inserted fn hi hk
    rw [hinsn, hreads m hm] at huse
    cases huse
  | past hle =>
    rw [insn_of_le hle] at huse
    cases huse

end

/-! ## Moves -/

variable {cap : RegClass → ℕ}

variable {isFloat : Bool} {m : ConstMove}

/-- What is found is the move that defines the constant. -/
theorem constDefIndex_spec {v : ℤ} {source : ℕ} (h : fn.constDefIndex v isFloat = some source) :
    (fn.insn source).op = .mov ∧ (fn.insn source).defs = v := by
  have hfound := find?_some h
  simp only [decide_eq_true_eq] at hfound
  refine ⟨hfound.1, ?_⟩
  rw [Inst.defs, if_pos ⟨by rw [hfound.1]; decide, hfound.2.2.1⟩, hfound.2.2.2.1]

/-- What the pass asks of a move. -/
theorem constMove_spec {v : ℤ} (h : fn.constMove cap isFloat v = some m) :
    (fn.insn m.source).op = .mov ∧ (fn.insn m.source).defs = v ∧
      (∃ first, fn.firstUseIndex v m.source = some first ∧ m.insert = (fn.constInsertIndex first).1) ∧
      fn.rangeIsSingleEntry m.insert m.loopEnd = true ∧ fn.allUsesInRange v m.insert m.loopEnd = true := by
  unfold constMove at h
  simp only [bind_eq_some_iff] at h
  obtain ⟨source, hsource, first, hfirst, loopEnd, _, hmove⟩ := h
  split at hmove
  · cases hmove
  rename_i hchecks
  split at hmove
  · cases hmove
  cases hmove
  obtain ⟨hop, hdefs⟩ := constDefIndex_spec hsource
  simp only [not_or, Decidable.not_not] at hchecks
  exact ⟨hop, hdefs, ⟨first, hfirst, rfl⟩, hchecks.2.2.2.1, hchecks.2.2.2.2⟩

/-- Each move is that of a pooled constant. -/
theorem mem_constMoves (h : m ∈ fn.constMoves cap) :
    ∃ isFloat, ∃ v ∈ fn.pool, fn.constMove cap isFloat v = some m := by
  rcases mem_append.mp h with h | h
  · obtain ⟨v, hv, hm⟩ := mem_filterMap.mp h
    exact ⟨false, v, mem_append_left _ hv, hm⟩
  · obtain ⟨v, hv, hm⟩ := mem_filterMap.mp h
    exact ⟨true, v, mem_append_right _ hv, hm⟩

/-- It only moves copies. -/
theorem movesCopies_constMoves (fn : MirFunction) (cap : RegClass → ℕ) : fn.MovesCopies (fn.constMoves cap) := by
  intro m hm
  obtain ⟨_, _, _, hmove⟩ := mem_constMoves hm
  exact (constMove_spec hmove).1

/-- The function after the pass. -/
theorem placeConstPool_eq (fn : MirFunction) (cap : RegClass → ℕ) :
    fn.placeConstPool cap = if fn.constMoves cap = [] then fn else fn.withMoves (fn.constMoves cap) := rfl

section

variable (hpool : fn.PoolDefined)

include hpool

variable {i : ℕ} {isFloat : Bool} {m : ConstMove}

/-- A constant of the pool has one definition. -/
theorem source_eq {v : ℤ} (hv : v ∈ fn.pool) {j : ℕ} (hi : (fn.insn i).defs = v) (hj : (fn.insn j).defs = v) :
    i = j := by
  obtain ⟨source, hsource⟩ := hpool.once v hv
  rw [(hsource i).mp hi, (hsource j).mp hj]

/-- A definition is inserted at one index only. -/
theorem insert_eq {v : ℤ} (hv : v ∈ fn.pool) (hm : fn.constMove cap isFloat v = some m) {m' : ConstMove}
    (hm' : m' ∈ fn.constMoves cap) (hdefs : (fn.insn m'.source).defs = v) : m'.insert = m.insert := by
  obtain ⟨_, v', hv', hmove'⟩ := mem_constMoves hm'
  obtain ⟨_, hdefs', ⟨first', hfirst', hinsert'⟩, _⟩ := constMove_spec hmove'
  obtain ⟨_, hdefsm, ⟨first, hfirst, hinsert⟩, _⟩ := constMove_spec hm
  obtain rfl : v' = v := hdefs'.symm.trans hdefs
  rw [source_eq hpool hv hdefs' hdefsm, hfirst, some.injEq] at hfirst'
  rw [hinsert', hinsert, hfirst']

/-- Only where it is inserted is there a definition of the constant. -/
theorem unset_of_ne {v : ℤ} (hv : v ∈ fn.pool) (hm : fn.constMove cap isFloat v = some m) (hi : i ≠ m.insert) :
    ∀ s ∈ insertedAt (fn.constMoves cap) i, v ≠ (fn.insn s).defs := by
  rintro s hs heq
  obtain ⟨m', hm', rfl⟩ := List.mem_map.mp hs
  rw [mem_filter, decide_eq_true_eq] at hm'
  exact hi (hm'.2.symm.trans (insert_eq hpool hv hm hm'.1 heq.symm))

/-- What is kept does not define a constant that is moved. -/
theorem kept_unset {v : ℤ} (hv : v ∈ fn.pool) (hm : m ∈ moves) (hdefs : (fn.insn m.source).defs = v)
    (hkept : fn.Kept moves i) : v ≠ (fn.insn i).defs := by
  rintro heq
  apply hkept.2
  rw [source_eq hpool hv heq.symm hdefs]
  exact List.mem_map_of_mem hm

end

/-! ## Paths around the insert point -/

/-- Control passes inserted definitions of other registers. -/
theorem reached_inserted {v : ℤ} {i k : ℕ} (hmoves : fn.MovesCopies moves) (hi : i ≤ fn.insnCount)
    (hk : k ≤ (insertedAt moves i).length) (hunset : ∀ s ∈ insertedAt moves i, v ≠ (fn.insn s).defs)
    (hlt : fn.slotAt moves i + k < (fn.withMoves moves).insnCount) :
    ReflTransGen ((fn.withMoves moves).StepsUnset v) (fn.slotAt moves i) (fn.slotAt moves i + k) := by
  induction k with
  | zero => exact .refl
  | succ k ih =>
    obtain ⟨m, hm, _, hget, hinsn⟩ := insn_inserted fn hi hk
    have hmov : ((fn.withMoves moves).insn (fn.slotAt moves i + k)).op = .mov := hinsn ▸ hmoves m hm
    refine (ih (by omega) (by omega)).tail ⟨mem_next.mpr (.inr ⟨falls_of_mov hmov, hlt, rfl⟩), ?_⟩
    rw [hinsn]
    exact hunset _ (mem_of_getElem? hget)

/-- A place that is reached after the moves without the constant is around its new definition. -/
theorem reached_place {v : ℤ} {insert i : ℕ} (hmoves : fn.MovesCopies moves)
    (hunset : ∀ i ≠ insert, ∀ s ∈ insertedAt moves i, v ≠ (fn.insn s).defs)
    (hkept : ∀ i, fn.Kept moves i → v ≠ (fn.insn i).defs) (h : fn.Around insert i) (hi : i ≤ fn.insnCount)
    (hlt : fn.place moves i < (fn.withMoves moves).insnCount) :
    ReflTransGen ((fn.withMoves moves).StepsUnset v) 0 (fn.place moves i) := by
  obtain ⟨hne, hpath⟩ := h
  induction hpath with
  | refl => exact reached_inserted hmoves hi le_rfl (hunset 0 hne.symm) hlt
  | @tail i j _ hstep ih =>
    rcases hstep with htarget | ⟨hfalls, hsucc, rfl, hj⟩
    · have hki := kept_of_mem_targets hmoves htarget
      refine (ih hki.1.le hki.place_lt).tail ⟨mem_next.mpr (.inl ?_), ?_⟩
      · rw [hki.targets_place hmoves]
        exact List.mem_map.mpr ⟨some j, htarget, rfl⟩
      · rw [hki.insn_place]
        exact hkept i hki
    · have hslot : fn.slotAt moves (i + 1) ≤ fn.place moves (i + 1) := Nat.le_add_right _ _
      have hplace := fn.place_le_slotAt_succ moves i
      have hbefore := ih (by omega) (by omega)
      have hinserted := reached_inserted hmoves hi le_rfl (hunset (i + 1) hj) hlt
      refine ReflTransGen.trans ?_ hinserted
      by_cases hki : fn.Kept moves i
      · rw [slotAt_succ_of_kept hki] at hslot ⊢
        refine hbefore.tail ⟨mem_next.mpr (.inr ⟨?_, by omega, rfl⟩), ?_⟩
        · rw [falls, hki.insn_place]
          exact hfalls
        · rw [hki.insn_place]
          exact hkept i hki
      · rw [slotAt_succ_of_not_kept hki]
        exact hbefore

/-- A path around the insert point that ends in the range has entered it by a jump. -/
theorem Around.enters {m : ConstMove} {i : ℕ} (hsingle : fn.rangeIsSingleEntry m.insert m.loopEnd = true)
    (h : fn.Around m.insert i) (hi : m.insert ≤ i ∧ i ≤ m.loopEnd) :
    ∃ p q, fn.Around m.insert p ∧ some q ∈ fn.targets p ∧ ¬ (m.insert ≤ p ∧ p ≤ m.loopEnd) ∧
      (m.insert ≤ q ∧ q ≤ m.loopEnd) ∧ (q = m.insert ∨ (fn.insn p).isCheckedJump = false) ∧
      ReflTransGen (fn.StepsAround m.insert) q i := by
  obtain ⟨hne, hpath⟩ := h
  -- on the path; the step that leads into the range for the first time
  induction hpath with
  | refl => omega
  | @tail i j hpath hstep ih =>
    by_cases hin : m.insert ≤ i ∧ i ≤ m.loopEnd
    · obtain ⟨p, q, hp, htarget, hout, hq, hkind, hrest⟩ := ih hin
      exact ⟨p, q, hp, htarget, hout, hq, hkind, hrest.tail hstep⟩
    rcases hstep with htarget | ⟨_, _, rfl, hj⟩
    · refine ⟨i, j, ⟨hne, hpath⟩, htarget, hin, hi, ?_, .refl⟩
      by_contra hkind
      rw [not_or, Bool.not_eq_false] at hkind
      have hlt : i < fn.insnCount := by
        by_contra hle
        have hnop := insn_of_le (Nat.le_of_not_lt hle)
        simp [targets, hnop, Inst.isCondBranch] at htarget
      have hcheck := List.all_eq_true.mp hsingle i (mem_range.mpr hlt)
      have hjump := hkind.2
      simp only [Inst.isCheckedJump, decide_eq_true_eq] at hjump
      have htargets : fn.targets i = [fn.labelFind (fn.insn i).dst.sym] := by
        unfold targets
        rw [if_pos]
        simp only [Inst.isCondBranch, decide_eq_true_eq]
        tauto
      rw [htargets, mem_singleton] at htarget
      rw [decide_eq_true_eq, ← htarget, hkind.2] at hcheck
      rcases hcheck with hinside | hunchecked | hoff
      · exact hin hinside
      · exact hunchecked rfl
      · simp only [any_some, decide_eq_true_eq, not_and, Nat.not_le] at hoff
        omega
    · omega

/-! ## Uses -/

section

variable (hpool : fn.PoolDefined)

include hpool

section

variable {v : ℤ} (hv : v ∈ fn.pool)
include hv

theorem ne_of_mem_pool : v ≠ -1 := by
  rintro rfl
  obtain ⟨source, hsource⟩ := hpool.once _ hv
  have hpast (k : ℕ) (hk : fn.insnCount ≤ k) : k = source := by
    apply (hsource k).mp
    rw [insn_of_le hk]
    rfl
  have h₁ := hpast fn.insnCount le_rfl
  have h₂ := hpast (fn.insnCount + 1) (Nat.le_succ _)
  omega

/-- A use is seen as one. -/
theorem usesVreg_of_mem_uses {i : ℕ} (h : v ∈ (fn.insn i).uses) : (fn.insn i).usesVreg v = true := by
  have hne := ne_of_mem_pool hpool hv
  have huses := h
  unfold Inst.uses at h
  split at h
  · cases h
  rename_i hop
  simp only [Inst.usesVreg, Inst.operandUses, decide_eq_true_eq]
  simp only [mem_append] at h
  rcases h with (h | h) | h
  · split at h
    · by_cases hmem : (fn.insn i).dst.kind = .mem
      · exact .inr (.inr ⟨hmem, hne, h⟩)
      · -- a conditional move of the constant would be a second definition
        have hdst : (fn.insn i).dst.kind = .vreg ∧ v = (fn.insn i).dst.vreg := by
          unfold Operand.vregs at h
          cases hkind : (fn.insn i).dst.kind <;> simp only [hkind, mem_singleton, not_mem_nil] at h hmem ⊢
          · exact ⟨trivial, h⟩
          · exact absurd trivial hmem
        have hdefs : (fn.insn i).defs = v := by
          rw [Inst.defs, if_pos ⟨hop, hdst.1⟩, hdst.2]
        rw [hpool.reads v hv i hdefs] at huses
        cases huses
    · cases h
  · exact .inl ⟨hne, h⟩
  · exact .inr (.inl ⟨hne, h⟩)

variable {isFloat : Bool} {m : ConstMove}

/-- Every use is between the new definition and the end of the loop. -/
theorem use_in_range (hm : fn.constMove cap isFloat v = some m) {u : ℕ} (hu : v ∈ (fn.insn u).uses) :
    m.insert ≤ u ∧ u ≤ m.loopEnd := by
  have hlt : u < fn.insnCount := by
    by_contra hle
    rw [insn_of_le (Nat.le_of_not_lt hle)] at hu
    cases hu
  have hall := List.all_eq_true.mp (constMove_spec hm).2.2.2.2 u (mem_range.mpr hlt)
  rw [decide_eq_true_eq] at hall
  have huse := usesVreg_of_mem_uses hpool hv hu
  by_contra hout
  exact hall ⟨huse, by omega⟩

/-- A moved constant is defined at its uses exactly if no unseen jump enters its range around the insert point. -/
theorem definedAtUses_moved (hm : fn.constMove cap isFloat v = some m) (hmem : m ∈ fn.constMoves cap) :
    (fn.withMoves (fn.constMoves cap)).DefinedAtUses v ↔ ¬ fn.EntersUnset m v := by
  have hmoves := movesCopies_constMoves fn cap
  obtain ⟨_, hdefs, _, hsingle, _⟩ := constMove_spec hm
  -- the moved instructions read no register themselves
  have hreads : ∀ m' ∈ fn.constMoves cap, (fn.insn m'.source).uses = [] := by
    intro m' hm'
    obtain ⟨_, v', hv', hmove'⟩ := mem_constMoves hm'
    exact hpool.reads v' hv' _ (constMove_spec hmove').2.1
  constructor
  -- an entry behind the insertion point reaches a use undefined
  · rintro hdefined ⟨p, q, u, ⟨hne, hp⟩, htarget, _, _, _, hrest, huse⟩
    have haround : fn.Around m.insert u := ⟨hne, (hp.tail (.inl htarget)).trans hrest⟩
    have hkept : fn.Kept (fn.constMoves cap) u := by
      constructor
      · by_contra hle
        rw [insn_of_le (Nat.le_of_not_lt hle)] at huse
        cases huse
      · intro hin
        obtain ⟨m', hm', rfl⟩ := List.mem_map.mp hin
        rw [hreads m' hm'] at huse
        cases huse
    refine hdefined _ (reached_place hmoves (fun i hi => unset_of_ne hpool hv hm hi)
      (fun i hi => kept_unset hpool hv hmem hdefs hi) haround hkept.1.le hkept.place_lt) ?_
    rw [hkept.insn_place]
    exact huse
  -- without such an entry every path to a use passes the insertion point
  · intro hnot u hreached huse
    have hinto : ∀ i, i < fn.insnCount → fn.ArrivesAt (fn.constMoves cap) v (fn.Around m.insert) i →
        (∀ s ∈ insertedAt (fn.constMoves cap) i, v ≠ (fn.insn s).defs) → fn.Around m.insert i := by
      rintro i hi harrives hunset
      have hne : i ≠ m.insert := by
        rintro rfl
        refine hunset m.source (List.mem_map_of_mem (mem_filter.mpr ⟨hmem, ?_⟩)) hdefs.symm
        exact decide_eq_true rfl
      rcases harrives with rfl | ⟨j, rfl, ⟨hzero, hpath⟩, hfalls, _⟩
      · exact ⟨hne.symm, .refl⟩
      · exact ⟨hzero, hpath.tail (.inr ⟨hfalls, hi, rfl, hne⟩)⟩
    obtain ⟨i, haround, hi⟩ := exists_use_of_reached hmoves hinto
      (fun i j h _ htarget => ⟨h.1, h.2.tail (.inl htarget)⟩) hreached huse hreads
    obtain ⟨p, q, hp, htarget, hout, hq, hkind, hrest⟩ := haround.enters hsingle (use_in_range hpool hv hm hi)
    exact hnot ⟨p, q, i, hp, htarget, hout, hq, hkind, hrest, hi⟩

/-- A constant that does not move stays defined at its uses. -/
theorem definedAtUses_unmoved (hunmoved : ∀ m ∈ fn.constMoves cap, (fn.insn m.source).defs ≠ v) :
    (fn.withMoves (fn.constMoves cap)).DefinedAtUses v := by
  have hmoves := movesCopies_constMoves fn cap
  have hreads : ∀ m' ∈ fn.constMoves cap, (fn.insn m'.source).uses = [] := by
    intro m' hm'
    obtain ⟨_, v', hv', hmove'⟩ := mem_constMoves hm'
    exact hpool.reads v' hv' _ (constMove_spec hmove').2.1
  intro u hreached huse
  have hinto : ∀ i, i < fn.insnCount → fn.ArrivesAt (fn.constMoves cap) v (ReflTransGen (fn.StepsUnset v) 0) i →
      (∀ s ∈ insertedAt (fn.constMoves cap) i, v ≠ (fn.insn s).defs) → ReflTransGen (fn.StepsUnset v) 0 i := by
    rintro i hi harrives -
    rcases harrives with rfl | ⟨j, rfl, hpath, hfalls, hkept⟩
    · exact .refl
    · refine hpath.tail ⟨mem_next.mpr (.inr ⟨hfalls, hi, rfl⟩), ?_⟩
      by_cases hj : fn.Kept (fn.constMoves cap) j
      · exact hkept hj
      · have hin : j ∈ (fn.constMoves cap).map ConstMove.source := by
          by_contra hnot
          exact hj ⟨by omega, hnot⟩
        obtain ⟨m, hm, rfl⟩ := List.mem_map.mp hin
        exact (hunmoved m hm).symm
  obtain ⟨i, hpath, hi⟩ := exists_use_of_reached hmoves hinto
    (fun i j h hunset htarget => h.tail ⟨mem_next.mpr (.inl htarget), hunset⟩) hreached huse hreads
  exact hpool.defined v hv i hpath hi

end

end

/-! ## Order -/

/-- The instructions that stay keep their order. -/
theorem poolOrder_kept (fn : MirFunction) (moves : List ConstMove) :
    (fn.poolOrder moves).filter (fun i => i ∉ moves.map ConstMove.source) =
      (range fn.insnCount).filter fun i => i ∉ moves.map ConstMove.source := by
  have hslot (i : ℕ) : (fn.poolSlot moves i).filter (fun i => i ∉ moves.map ConstMove.source) =
      if i < fn.insnCount then [i].filter (fun i => i ∉ moves.map ConstMove.source) else [] := by
    have hinserted : (insertedAt moves i).filter (fun i => i ∉ moves.map ConstMove.source) = [] := by
      rw [filter_eq_nil_iff]
      intro s hs
      obtain ⟨m, hm, rfl⟩ := List.mem_map.mp hs
      simp only [decide_eq_true_eq, Decidable.not_not]
      exact List.mem_map_of_mem (mem_filter.mp hm).1
    by_cases hkept : fn.Kept moves i
    · rw [poolSlot_of_kept hkept, filter_append, hinserted, if_pos hkept.1, nil_append]
    · rw [poolSlot_of_not_kept hkept, hinserted]
      split
      · rename_i hi
        have hin : i ∈ moves.map ConstMove.source := by
          by_contra hnot
          exact hkept ⟨hi, hnot⟩
        rw [filter_cons_of_neg (by simpa using hin), filter_nil]
      · rfl
  have hrange (n : ℕ) (hn : n ≤ fn.insnCount) :
      ((range n).flatMap (fn.poolSlot moves)).filter (fun i => i ∉ moves.map ConstMove.source) =
        (range n).filter fun i => i ∉ moves.map ConstMove.source := by
    induction n with
    | zero => rfl
    | succ n ih =>
      rw [range_succ, flatMap_append, filter_append, filter_append, ih (by omega),
        flatMap_singleton, hslot, if_pos (by omega)]
  rw [poolOrder, range_succ, flatMap_append, filter_append, hrange _ le_rfl, flatMap_singleton,
    hslot, if_neg (lt_irrefl _), append_nil]

end MirFunction

open MirFunction

/-- After `mir_place_const_pool` the other instructions are in their order, and every pooled constant is defined at its
uses exactly if no jump that the pass does not look at enters the range of a move around its insert point. -/
theorem placeConstPool_defined (fn : MirFunction) (cap : RegClass → ℕ) (hpool : fn.PoolDefined) :
    (∃ order : List ℕ, (fn.placeConstPool cap).insns = order.map fn.insn ∧
      order.filter (fun i => i ∉ (fn.constMoves cap).map ConstMove.source) =
        (List.range fn.insnCount).filter fun i => i ∉ (fn.constMoves cap).map ConstMove.source) ∧
    ((∀ v ∈ fn.pool, (fn.placeConstPool cap).DefinedAtUses v) ↔
      ∀ m ∈ fn.constMoves cap, ¬ fn.EntersUnset m (fn.insn m.source).defs) := by
  rw [placeConstPool_eq]
  split
  · rename_i hnone
    refine ⟨⟨List.range fn.insnCount, ?_, rfl⟩, fun _ m hm => ?_, fun _ => hpool.defined⟩
    · apply List.ext_getElem
      · rw [List.length_map, List.length_range]
        rfl
      · intro k hk _
        rw [List.getElem_map, List.getElem_range, MirFunction.insn, List.getD_eq_getElem _ _ hk]
    · rw [hnone] at hm
      cases hm
  refine ⟨⟨_, rfl, poolOrder_kept fn _⟩, fun hdefined m hm => ?_, fun hnot v hv => ?_⟩
  · obtain ⟨_, v, hv, hmove⟩ := mem_constMoves hm
    rw [(constMove_spec hmove).2.1]
    exact (definedAtUses_moved hpool hv hmove hm).mp (hdefined v hv)
  · by_cases hmoved : ∃ m ∈ fn.constMoves cap, (fn.insn m.source).defs = v
    · obtain ⟨m, hm, hdefs⟩ := hmoved
      obtain ⟨_, v', _, hmove⟩ := mem_constMoves hm
      obtain rfl : v' = v := (constMove_spec hmove).2.1.symm.trans hdefs
      exact (definedAtUses_moved hpool hv hmove hm).mpr (hdefs ▸ hnot m hm)
    · apply definedAtUses_unmoved hpool hv
      exact fun m hm hdefs => hmoved ⟨m, hm, hdefs⟩

/-- A switch whose cases share a constant. -/
def sharedConstant : MirFunction where
  vregs := [{}, {}]
  iconsts := [0]
  insns := [{ op := .mov, dst := .ofVreg 0, a := .ofImm 7 },
    { op := .jmpTable, a := .ofVreg 1, table := some [some "one", some "two"] },
    { op := .label, dst := { kind := .label, sym := some "one" } },
    { op := .call, a := .ofVreg 0 },
    { op := .jmp, dst := { kind := .label, sym := some "done" } },
    { op := .label, dst := { kind := .label, sym := some "two" } },
    { op := .call, a := .ofVreg 0 },
    { op := .label, dst := { kind := .label, sym := some "done" } },
    { op := .ret }]

/-- In the example every constant is defined before it is used. -/
theorem sharedConstant_poolDefined : sharedConstant.PoolDefined := by
  have hdefs (k : ℕ) : (sharedConstant.insn k).defs = 0 ↔ k = 0 := by
    by_cases hk : k < 9
    · interval_cases k <;> decide
    · rw [insn_of_le (show sharedConstant.insnCount ≤ k from Nat.le_of_not_lt hk)]
      simp only [Inst.defs]
      omega
  refine ⟨?_, ?_, ?_⟩ <;> intro v hv <;> obtain rfl : v = 0 := mem_singleton.mp hv
  · exact ⟨0, hdefs⟩
  · intro k hk
    rw [(hdefs k).mp hk]
    decide
  · intro u hu huse
    rcases Relation.ReflTransGen.cases_head hu with rfl | ⟨j, hstep, _⟩
    · revert huse
      decide
    · exact hstep.2 ((hdefs 0).mpr rfl).symm

/-- The condition decides the switch, whichever way. -/
theorem placeConstPool_defined_switch :
    (∃ order : List ℕ, (sharedConstant.placeConstPool fun _ => 8).insns = order.map sharedConstant.insn ∧
      order.filter (fun i => i ∉ (sharedConstant.constMoves fun _ => 8).map ConstMove.source) =
        (List.range sharedConstant.insnCount).filter
          fun i => i ∉ (sharedConstant.constMoves fun _ => 8).map ConstMove.source) ∧
    ((∀ v ∈ sharedConstant.pool, (sharedConstant.placeConstPool fun _ => 8).DefinedAtUses v) ↔
      ∀ m ∈ sharedConstant.constMoves fun _ => 8, ¬ sharedConstant.EntersUnset m (sharedConstant.insn m.source).defs) :=
  placeConstPool_defined sharedConstant (fun _ => 8) sharedConstant_poolDefined

/-- The second case reaches its use of the constant around the definition, which went into the first. -/
theorem placeConstPool_unset : sharedConstant.PoolDefined ∧
    ¬ (sharedConstant.placeConstPool fun _ => 8).DefinedAtUses 0 := by
  refine ⟨sharedConstant_poolDefined, fun hdefined => ?_⟩
  have hstep (i j : ℕ) (h : j ∈ (sharedConstant.placeConstPool fun _ => 8).next i ∧
      0 ≠ ((sharedConstant.placeConstPool fun _ => 8).insn i).defs) :
      (sharedConstant.placeConstPool fun _ => 8).StepsUnset 0 i j := h
  refine hdefined 6 (((Relation.ReflTransGen.refl.tail (hstep 0 5 ?_)).tail (hstep 5 6 ?_))) ?_ <;> decide

end Mettle.Mir

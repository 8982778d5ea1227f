import Mettle.Lib.Layout
import Mettle.Mir.RaFacts

/-!
# Placing the constant pool

`mir_place_const_pool` of `mir_lower.c`: the definition of a pooled constant moves to its first use, or in front of the
loop that has it. Running out of memory is left out.
-/

open List

namespace Mettle.Mir

namespace Inst

/-- `mir_operand_uses_vreg`. -/
def operandUses (o : Operand) (v : ℤ) : Bool := v ≠ -1 ∧ v ∈ o.vregs

/-- `mir_inst_uses_vreg`. -/
def usesVreg (i : Inst) (v : ℤ) : Bool :=
  operandUses i.a v ∨ operandUses i.b v ∨ (i.dst.kind = .mem ∧ operandUses i.dst v)

/-- A jump to a label, or a conditional branch. -/
def isLabelJump (i : Inst) : Bool :=
  (i.op = .jmp ∨ i.op = .jcc ∨ i.op = .cmpbr ∨ i.op = .fcmpbr) ∧ i.dst.kind = .label ∧ i.dst.sym.isSome

/-- The jumps that the checks of the pass look at: these and bit tests. -/
def isCheckedJump (i : Inst) : Bool :=
  (i.op = .jmp ∨ i.op = .jcc ∨ i.op = .cmpbr ∨ i.op = .bt ∨ i.op = .fcmpbr) ∧ i.dst.kind = .label ∧ i.dst.sym.isSome

end Inst

/-- The move of a definition, with the end of the range that its uses lie in. -/
structure ConstMove where
  insert : ℕ
  source : ℕ
  loopEnd : ℕ
  deriving DecidableEq, Repr

namespace MirFunction

variable (fn : MirFunction)

/-- `mir_const_def_index`. -/
def constDefIndex (v : ℤ) (isFloat : Bool) : Option ℕ :=
  (List.range fn.insnCount).find? fun i =>
    let inst := fn.insn i
    inst.op = .mov ∧ inst.isFloat = isFloat ∧ inst.dst.kind = .vreg ∧ inst.dst.vreg = v ∧
      inst.a.kind = if isFloat then .fimm else .imm

/-- `mir_first_use_index`. -/
def firstUseIndex (v : ℤ) (source : ℕ) : Option ℕ :=
  (List.range fn.insnCount).find? fun i => i ≠ source ∧ (fn.insn i).usesVreg v

/-- `mir_last_use_index`. -/
def lastUseIndex (v : ℤ) (source : ℕ) : Option ℕ :=
  (List.range fn.insnCount).reverse.find? fun i => i ≠ source ∧ (fn.insn i).usesVreg v

/-- `mir_label_has_forward_target`. -/
def labelHasForwardTarget (name : Option String) (l : ℕ) : Bool :=
  (List.range l).any fun i => (fn.insn i).isLabelJump && (fn.insn i).dst.sym == name

/-- `mir_all_uses_in_range`. -/
def allUsesInRange (v : ℤ) (lo hi : ℕ) : Bool :=
  (List.range fn.insnCount).all fun i => ¬ ((fn.insn i).usesVreg v ∧ (i < lo ∨ hi < i))

/-- `mir_range_is_single_entry`. -/
def rangeIsSingleEntry (lo hi : ℕ) : Bool :=
  (List.range fn.insnCount).all fun i =>
    (lo ≤ i ∧ i ≤ hi) ∨ ¬ (fn.insn i).isCheckedJump ∨
      ¬ (fn.labelFind (fn.insn i).dst.sym).any fun target => lo < target ∧ target ≤ hi

/-- `mir_insert_point_is_reached`. -/
def insertPointIsReached (insert : ℕ) : Bool :=
  insert = 0 ∨ fn.insnCount ≤ insert ∨
    ((fn.insn (insert - 1)).op ≠ .jmp ∧ (fn.insn (insert - 1)).op ≠ .ret)

/-- `mir_preheader_insert_index`. -/
def preheaderInsertIndex (header : ℕ) : ℕ :=
  if header = 0 then header else if (fn.insn (header - 1)).op = .jmp then header - 1 else header

/-- One branch of the scan of `mir_const_insert_index`, on the insert point and the end of the loop. -/
def constInsertStep (first : ℕ) (acc : ℕ × ℕ) (b : ℕ) : ℕ × ℕ :=
  let br := fn.insn b
  if ¬ br.isCheckedJump then acc
  else
    match fn.labelFind br.dst.sym with
    | none => acc
    | some l =>
      if b ≤ l ∨ first < l ∨ b < first then acc
      else if fn.labelHasForwardTarget br.dst.sym l then acc
      else if acc.1 = first ∨ acc.1 < l then (fn.preheaderInsertIndex l, b)
      else acc

/-- `mir_const_insert_index`. -/
def constInsertIndex (first : ℕ) : ℕ × ℕ := (List.range fn.insnCount).foldl (fn.constInsertStep first) (first, first)

/-- The mentions of a register inside a range. -/
def mentionsIn (lo hi : ℕ) (v : ℤ) : List ℕ :=
  (List.range' lo (hi + 1 - lo)).filter fun i => v ∈ (fn.insn i).mentions

/-- A register of the class takes part in the pressure at an instruction of a range: it is mentioned in the range, and
lives all through it if it is mentioned outside as well. -/
def presses (lo hi : ℕ) (rclass : RegClass) (i : ℕ) (v : ℤ) : Bool :=
  let inside := fn.mentionsIn lo hi v
  let outside := (List.range fn.insnCount).any fun j => (j < lo ∨ hi < j) ∧ v ∈ (fn.insn j).mentions
  (fn.vreg v).rclass = rclass ∧ inside ≠ [] ∧ (outside ∨ (inside.headD 0 ≤ i ∧ i ≤ inside.getLastD 0))

/-- `mir_loop_reg_pressure`. -/
def loopRegPressure (lo hi : ℕ) (rclass : RegClass) : ℕ :=
  if fn.vregCount = 0 ∨ fn.insnCount = 0 ∨ hi < lo ∨ fn.insnCount ≤ hi then 0
  else
    ((List.range' lo (hi + 1 - lo)).map fun i => (fn.vregIds.filter (fn.presses lo hi rclass i)).length).foldl max 0

/-- The decision of `mir_place_const_pool` on one constant; `cap` is `mir_const_hoist_pressure_cap`. -/
def constMove (cap : RegClass → ℕ) (isFloat : Bool) (v : ℤ) : Option ConstMove :=
  (fn.constDefIndex v isFloat).bind fun source =>
    (fn.firstUseIndex v source).bind fun first =>
      let insert := (fn.constInsertIndex first).1
      let loopEnd := if insert = first then fn.lastUseIndex v source else some (fn.constInsertIndex first).2
      loopEnd.bind fun loopEnd =>
        if (source < insert ∧ insert ≤ source + 1) ∨ insert = source ∨ ¬ fn.insertPointIsReached insert ∨
            ¬ fn.rangeIsSingleEntry insert loopEnd ∨ ¬ fn.allUsesInRange v insert loopEnd then none
        else if insert < source ∧
            cap (fn.vreg v).rclass ≤ fn.loopRegPressure insert loopEnd (fn.vreg v).rclass then none
        else some { insert, source, loopEnd }

/-- `moves`. -/
def constMoves (cap : RegClass → ℕ) : List ConstMove :=
  fn.iconsts.filterMap (fn.constMove cap false) ++ fn.fconsts.filterMap (fn.constMove cap true)

/-- What the copy loop writes at an index: the definitions inserted there, then its instruction unless that moved. -/
def poolSlot (moves : List ConstMove) (i : ℕ) : List ℕ :=
  (moves.filter fun m => m.insert = i).map ConstMove.source ++
    if i < fn.insnCount ∧ i ∉ moves.map ConstMove.source then [i] else []

/-- The instructions of the result by their indices before. -/
def poolOrder (moves : List ConstMove) : List ℕ := (List.range (fn.insnCount + 1)).flatMap (fn.poolSlot moves)

/-- `mir_place_const_pool`. -/
def placeConstPool (cap : RegClass → ℕ) : MirFunction :=
  let moves := fn.constMoves cap
  if moves = [] then fn else { fn with insns := (fn.poolOrder moves).map fn.insn }

end MirFunction

/-!
## Where the instructions go

The positions of instructions in the function with the placed pool, and its control transfers in terms of those before.
-/

open Mettle.Lib

namespace MirFunction

/-- The definitions inserted at an index. -/
def insertedAt (moves : List ConstMove) (i : ℕ) : List ℕ := (moves.filter fun m => m.insert = i).map ConstMove.source

/-- The instruction stays in its place. -/
def Kept (fn : MirFunction) (moves : List ConstMove) (i : ℕ) : Prop := i < fn.insnCount ∧ i ∉ moves.map ConstMove.source

/-- The function with the moves carried out. -/
def withMoves (fn : MirFunction) (moves : List ConstMove) : MirFunction :=
  { fn with insns := (fn.poolOrder moves).map fn.insn }

/-- Where the definitions inserted at an index stand. -/
def slotAt (fn : MirFunction) (moves : List ConstMove) (i : ℕ) : ℕ := slotStart (fn.poolSlot moves) i

/-- Where the instruction at an index stands: behind the definitions inserted there. -/
def place (fn : MirFunction) (moves : List ConstMove) (i : ℕ) : ℕ := fn.slotAt moves i + (insertedAt moves i).length

/-- What moves are the loads of immediates. -/
def MovesCopies (fn : MirFunction) (moves : List ConstMove) : Prop := ∀ m ∈ moves, (fn.insn m.source).op = .mov

variable {fn : MirFunction} {moves : List ConstMove} {i : ℕ}

/-- A kept instruction stands behind what is inserted before it. -/
theorem poolSlot_of_kept (h : fn.Kept moves i) : fn.poolSlot moves i = insertedAt moves i ++ [i] := by
  have hkept : i < fn.insnCount ∧ i ∉ moves.map ConstMove.source := h
  rw [poolSlot, if_pos hkept]
  rfl

/-- One that is moved leaves only what is inserted. -/
theorem poolSlot_of_not_kept (h : ¬ fn.Kept moves i) : fn.poolSlot moves i = insertedAt moves i := by
  have hmoved : ¬ (i < fn.insnCount ∧ i ∉ moves.map ConstMove.source) := h
  rw [poolSlot, if_neg hmoved, append_nil]
  rfl

/-- The next slot starts behind a kept instruction. -/
theorem slotAt_succ_of_kept (h : fn.Kept moves i) : fn.slotAt moves (i + 1) = fn.place moves i + 1 := by
  rw [slotAt, slotStart_succ, poolSlot_of_kept h, length_append]
  rfl

/-- It starts at the place of one that is moved away. -/
theorem slotAt_succ_of_not_kept (h : ¬ fn.Kept moves i) : fn.slotAt moves (i + 1) = fn.place moves i := by
  rw [slotAt, slotStart_succ, poolSlot_of_not_kept h]
  rfl

section

variable (fn : MirFunction) (moves : List ConstMove)

theorem place_le_slotAt_succ (i : ℕ) : fn.place moves i ≤ fn.slotAt moves (i + 1) := by
  by_cases h : fn.Kept moves i
  · rw [slotAt_succ_of_kept h]
    omega
  · rw [slotAt_succ_of_not_kept h]

/-- Slots are in order. -/
theorem slotAt_mono {i j : ℕ} (h : i ≤ j) : fn.slotAt moves i ≤ fn.slotAt moves j := slotStart_mono _ h

/-- The instructions after the moves end with the last slot. -/
theorem withMoves_insnCount : (fn.withMoves moves).insnCount = fn.slotAt moves (fn.insnCount + 1) := length_map _

theorem place_insnCount : fn.place moves fn.insnCount = (fn.withMoves moves).insnCount := by
  rw [withMoves_insnCount, slotAt_succ_of_not_kept fun h => absurd h.1 (lt_irrefl _)]

end

/-- A kept instruction is inside the function. -/
theorem Kept.place_lt (h : fn.Kept moves i) : fn.place moves i < (fn.withMoves moves).insnCount := by
  have hmono := fn.slotAt_mono moves (Nat.succ_le_succ h.1.le)
  rw [Nat.succ_eq_add_one, slotAt_succ_of_kept h] at hmono
  rw [withMoves_insnCount]
  exact hmono

variable {k p j : ℕ} {name : String}

/-- The instructions after the moves, slot by slot. -/
theorem insn_of_slot {s : ℕ} (hi : i ≤ fn.insnCount) (hs : (fn.poolSlot moves i)[k]? = some s) :
    (fn.withMoves moves).insn (fn.slotAt moves i + k) = fn.insn s := by
  have hk : k < (fn.poolSlot moves i).length := (List.getElem?_eq_some_iff.mp hs).1
  have hget := getElem?_slots (Nat.lt_succ_of_le hi) hk
  rw [hs] at hget
  show (((fn.poolOrder moves).map fn.insn).getD (slotStart (fn.poolSlot moves) i + k) {}) = _
  rw [getD_eq_getElem?_getD, List.getElem?_map, poolOrder, hget]
  rfl

/-- The instruction at an index stands in its place. -/
theorem Kept.insn_place (h : fn.Kept moves i) : (fn.withMoves moves).insn (fn.place moves i) = fn.insn i := by
  apply insn_of_slot h.1.le
  rw [poolSlot_of_kept h, List.getElem?_append_right le_rfl, Nat.sub_self]
  rfl

/-- In front of it stand the inserted definitions. -/
theorem insn_inserted (fn : MirFunction) (hi : i ≤ fn.insnCount) (hk : k < (insertedAt moves i).length) :
    ∃ m ∈ moves, m.insert = i ∧ (insertedAt moves i)[k]? = some m.source ∧
      (fn.withMoves moves).insn (fn.slotAt moves i + k) = fn.insn m.source := by
  obtain ⟨m, hm, hsource⟩ := mem_map.mp (getElem_mem hk)
  rw [mem_filter, decide_eq_true_eq] at hm
  have hget : (insertedAt moves i)[k]? = some m.source := by
    rw [List.getElem?_eq_getElem hk, hsource]
  refine ⟨m, hm.1, hm.2, hget, insn_of_slot hi ?_⟩
  show (insertedAt moves i ++ _)[k]? = _
  rw [List.getElem?_append_left hk]
  exact hget

/-- Every position is that of an inserted definition, or the place of an instruction. -/
theorem position_cases (hp : p < (fn.withMoves moves).insnCount) :
    (∃ i k, i ≤ fn.insnCount ∧ k < (insertedAt moves i).length ∧ p = fn.slotAt moves i + k) ∨
      ∃ i, fn.Kept moves i ∧ p = fn.place moves i := by
  rw [withMoves_insnCount] at hp
  obtain ⟨i, k, hi, hk, heq⟩ := slot_of_lt hp
  by_cases hinserted : k < (insertedAt moves i).length
  · exact .inl ⟨i, k, by omega, hinserted, heq⟩
  by_cases hkept : fn.Kept moves i
  · rw [poolSlot_of_kept hkept, length_append, length_singleton] at hk
    refine .inr ⟨i, hkept, heq.trans ?_⟩
    rw [(by omega : k = (insertedAt moves i).length)]
    rfl
  · rw [poolSlot_of_not_kept hkept] at hk
    exact absurd hk hinserted

/-! ## Labels and transfers -/

/-- The instruction is the label of a name. -/
def labels (fn : MirFunction) (name : String) (i : ℕ) : Bool := (fn.insn i).isLabel && (fn.insn i).dst.sym == some name

/-- The search finds the first label of the name. -/
theorem labelFind_eq_some {l : ℕ} : fn.labelFind (some name) = some l ↔
    l < fn.insnCount ∧ fn.labels name l = true ∧ ∀ j < l, fn.labels name j = false := by
  have hget (j : ℕ) (hj : j < fn.insns.length) : fn.insns[j] = fn.insn j := by
    rw [MirFunction.insn, getD_eq_getElem _ _ hj]
  show fn.insns.findIdx? _ = some l ↔ _
  rw [findIdx?_eq_some_iff_getElem]
  constructor
  · rintro ⟨hl, hlabel, hbefore⟩
    refine ⟨hl, ?_, fun j hj => ?_⟩
    · rw [hget l hl] at hlabel
      exact hlabel
    · have := hbefore j hj
      rw [hget j (hj.trans hl), Bool.not_eq_true] at this
      exact this
  · rintro ⟨hl, hlabel, hbefore⟩
    refine ⟨hl, ?_, fun j hj => ?_⟩
    · rw [hget l hl]
      exact hlabel
    · rw [hget j (hj.trans hl), Bool.not_eq_true]
      exact hbefore j hj

/-- It finds nothing when there is no label of the name. -/
theorem labelFind_eq_none (h : ∀ j, fn.labels name j = false) : fn.labelFind (some name) = none := by
  cases hfind : fn.labelFind (some name) with
  | none => rfl
  | some l =>
    have hlabel := (labelFind_eq_some.mp hfind).2.1
    rw [h l] at hlabel
    cases hlabel

/-- Labels are kept. -/
theorem kept_of_labels (hmoves : fn.MovesCopies moves) (h : fn.labels name i = true) : fn.Kept moves i := by
  have hlabel : (fn.insn i).op = .label := by
    simp only [labels, Inst.isLabel, Bool.and_eq_true, decide_eq_true_eq] at h
    exact h.1.1
  refine ⟨?_, fun hin => ?_⟩
  · by_contra hle
    rw [insn_of_le (Nat.le_of_not_lt hle)] at hlabel
    cases hlabel
  · obtain ⟨m, hm, rfl⟩ := mem_map.mp hin
    rw [hmoves m hm] at hlabel
    cases hlabel

/-- A label stands in the place of the label it was. -/
theorem labels_withMoves (hmoves : fn.MovesCopies moves) (h : (fn.withMoves moves).labels name p = true) :
    ∃ i, fn.labels name i = true ∧ p = fn.place moves i := by
  have hp : p < (fn.withMoves moves).insnCount := by
    by_contra hle
    rw [labels, insn_of_le (Nat.le_of_not_lt hle)] at h
    cases h
  rcases position_cases hp with ⟨i, k, hi, hk, rfl⟩ | ⟨i, hkept, rfl⟩
  · obtain ⟨m, hm, _, _, hinsn⟩ := insn_inserted fn hi hk
    rw [labels, hinsn, Inst.isLabel, hmoves m hm] at h
    cases h
  · rw [labels, hkept.insn_place] at h
    exact ⟨i, h, rfl⟩

/-- The order of the kept instructions is kept. -/
theorem place_lt_place (fn : MirFunction) (moves : List ConstMove) (hi : fn.Kept moves i) (h : i < j) :
    fn.place moves i < fn.place moves j := by
  have hmono := fn.slotAt_mono moves h
  rw [Nat.succ_eq_add_one, slotAt_succ_of_kept hi] at hmono
  show _ < fn.slotAt moves j + _
  omega

/-- Labels are found at their new places. -/
theorem labelFind_withMoves (hmoves : fn.MovesCopies moves) (name : Option String) :
    (fn.withMoves moves).labelFind name = (fn.labelFind name).map (fn.place moves) := by
  cases name with
  | none => rfl
  | some name =>
    cases hfind : fn.labelFind (some name) with
    | none =>
      apply labelFind_eq_none
      intro p
      by_contra hlabel
      obtain ⟨i, hi, _⟩ := labels_withMoves hmoves (Bool.not_eq_false _ ▸ hlabel)
      have hnone : ∀ l, fn.labelFind (some name) ≠ some l := by
        intro l
        rw [hfind]
        exact nofun
      -- the first such label would be found
      have hex : ∃ l, fn.labels name l = true := ⟨i, hi⟩
      classical
      refine hnone (Nat.find hex) (labelFind_eq_some.mpr ⟨?_, Nat.find_spec hex, fun j hj => ?_⟩)
      · exact (kept_of_labels hmoves (Nat.find_spec hex)).1
      · exact Bool.eq_false_iff.mpr (Nat.find_min hex hj)
    | some l =>
      obtain ⟨_, hlabel, hbefore⟩ := labelFind_eq_some.mp hfind
      have hkept := kept_of_labels hmoves hlabel
      refine labelFind_eq_some.mpr ⟨hkept.place_lt, ?_, fun p hp => ?_⟩
      · rw [labels, hkept.insn_place]
        exact hlabel
      · by_contra hother
        obtain ⟨i, hi, rfl⟩ := labels_withMoves hmoves (Bool.not_eq_false _ ▸ hother)
        rcases Nat.lt_trichotomy i l with hlt | rfl | hgt
        · rw [hbefore i hlt] at hi
          cases hi
        · exact lt_irrefl _ hp
        · have := fn.place_lt_place moves hkept hgt
          omega

/-- The targets of an instruction are the places of those it had. -/
theorem Kept.targets_place (h : fn.Kept moves i) (hmoves : fn.MovesCopies moves) :
    (fn.withMoves moves).targets (fn.place moves i) = (fn.targets i).map (Option.map (fn.place moves)) := by
  have hlabels : (fn.withMoves moves).labelFind = fun name => (fn.labelFind name).map (fn.place moves) :=
    funext (labelFind_withMoves hmoves)
  unfold targets
  simp only [h.insn_place, hlabels]
  split
  · rfl
  · split
    · rw [map_map]
      rfl
    · rfl

theorem targets_of_mov (h : (fn.insn i).op = .mov) : fn.targets i = [] := by
  unfold targets
  simp [h, Inst.isCondBranch]

theorem falls_of_mov (h : (fn.insn i).op = .mov) : fn.falls i = true := by
  simp [falls, h]

/-- An instruction with a target is kept. -/
theorem kept_of_mem_targets (hmoves : fn.MovesCopies moves) (h : some j ∈ fn.targets i) : fn.Kept moves i := by
  constructor
  · by_contra hle
    have hnop := insn_of_le (Nat.le_of_not_lt hle)
    simp [targets, hnop, Inst.isCondBranch] at h
  · intro hin
    obtain ⟨m, hm, rfl⟩ := mem_map.mp hin
    rw [targets_of_mov (hmoves m hm)] at h
    cases h

theorem labelFind_of_mem_targets (h : some j ∈ fn.targets i) : ∃ name, fn.labels name j = true := by
  have hname (name : Option String) (hfind : fn.labelFind name = some j) : ∃ name, fn.labels name j = true := by
    cases name with
    | none => cases hfind
    | some name => exact ⟨name, (labelFind_eq_some.mp hfind).2.1⟩
  unfold targets at h
  simp only at h
  split at h
  · exact hname _ (mem_singleton.mp h).symm
  · split at h
    · obtain ⟨name, _, hfind⟩ := mem_map.mp h
      exact hname name hfind
    · cases h

/-- Targets are kept. -/
theorem kept_of_target (hmoves : fn.MovesCopies moves) (h : some j ∈ fn.targets i) : fn.Kept moves j := by
  obtain ⟨name, hname⟩ := labelFind_of_mem_targets h
  exact kept_of_labels hmoves hname

end MirFunction

end Mettle.Mir

import Mettle.Ir.CfgBuildSound
import Mettle.Ir.DominatorsFrontier
import Mettle.Ir.Relocate

/-!
# The control-flow graph is exact

The graph that is built against the linear code: its blocks cut the instructions in order, control enters a
block at its first instruction and leaves it behind its last one that is not a `NOP`, and the edges are
where control can pass. The graph does not look at what a branch tests, so a branch on a constant keeps the
edge that is never taken. An execution has been in every dominator of the block that it is in.
-/

namespace Mettle.Ir

open Mettle.Lib List Option

variable {fn : Function}

/-! ## Where control passes -/

/-- Control can pass from an instruction to another, whatever the instruction computes or tests: to the next
one unless it is a jump or a return, to its label if it is a jump or a branch. -/
def Function.Passes (fn : Function) (p q : ℕ) : Prop :=
  p < fn.instructions.length ∧ q < fn.instructions.length ∧
    (((fn.insn p).isTerminator = false ∧ q = p + 1) ∨
      (((fn.insn p).op = .jump ∨ (fn.insn p).isBranch) ∧ fn.findLabel (fn.insn p).text = some q))

/-- A step of an execution is one along which control can pass. -/
theorem passes_of_step {W : Type} {H : Host W} {p q : ℕ} {s t : State W}
    (h : step H fn (.at p s) = some (.at q t)) (hq : q < fn.instructions.length) : fn.Passes p q := by
  rcases Nat.lt_or_ge p fn.instructions.length with hp | hp
  · refine ⟨hp, hq, ?_⟩
    rw [step_eq_land hp, bind_eq_some_iff] at h
    obtain ⟨exit, hleave, hland⟩ := h
    cases exit with
    | next u =>
      cases hland
      obtain ⟨hjump, hreturn⟩ := State.leave_next_op hleave
      exact Or.inl ⟨by simp [Inst.isTerminator, hjump, hreturn], rfl⟩
    | goto label u =>
      obtain ⟨rfl, rfl⟩ := State.leave_goto hleave
      obtain ⟨target, htarget, heq⟩ := map_eq_some_iff.mp hland
      cases heq
      refine Or.inr ⟨?_, htarget⟩
      rcases State.leave_goto_op hleave with hop | hop | hop
      · exact Or.inl hop
      · exact Or.inr (by simp [Inst.isBranch, hop])
      · exact Or.inr (by simp [Inst.isBranch, hop])
    | ret v u => cases hland
  · rw [step, if_pos hp] at h
    cases h

/-! ## The blocks -/

namespace Cfg

variable {b c p q : ℕ}

/-- What delimits a block. -/
structure Delimits (fn : Function) (start stop : ℕ) : Prop where
  lt : start < stop
  le : stop ≤ fn.instructions.length
  starts : fn.startsBlock start = true
  inside : ∀ j, start < j → j < stop → fn.startsBlock j = false
  next : stop < fn.instructions.length → fn.startsBlock stop = true

theorem blockStarts_nodup : fn.blockStarts.Nodup := nodup_range.filter _

/-- The block whose first instruction is given. -/
theorem blockStarts_at {start : ℕ} (hlt : start < fn.instructions.length) (hstart : fn.startsBlock start = true) :
    (startsBefore fn start).length < fn.blockStarts.length ∧
      fn.blockStarts.getD (startsBefore fn start).length fn.instructions.length = start := by
  refine ⟨?_, getD_blockStarts hlt.le fun _ => hstart⟩
  obtain ⟨rest, hrest⟩ : ∃ rest, startsBefore fn fn.instructions.length = startsBefore fn (start + 1) ++ rest :=
    startsBefore_prefix hlt
  rw [blockStarts_eq, hrest, startsBefore_succ, if_pos hstart, length_append, length_append, length_singleton]
  omega

/-- The start of a block, and how many there are before it. -/
theorem startsBefore_getD (hb : b < fn.blockStarts.length) :
    fn.blockStarts.getD b fn.instructions.length < fn.instructions.length ∧
      fn.startsBlock (fn.blockStarts.getD b fn.instructions.length) = true ∧
      (startsBefore fn (fn.blockStarts.getD b fn.instructions.length)).length = b := by
  rw [getD_eq_getElem _ _ hb]
  have hmem : fn.blockStarts[b] ∈ fn.blockStarts := getElem_mem hb
  obtain ⟨hrange, hstart⟩ := mem_filter.mp hmem
  have hlt := mem_range.mp hrange
  obtain ⟨hindex, hvalue⟩ := blockStarts_at hlt hstart
  refine ⟨hlt, hstart, ?_⟩
  rw [getD_eq_getElem _ _ hindex] at hvalue
  exact (blockStarts_nodup.getElem_inj_iff).mp hvalue

/-- The range of a block. -/
theorem delimits_blockRange (hb : b < fn.blockStarts.length) :
    Delimits fn (fn.blockRange b).1 (fn.blockRange b).2 := by
  obtain ⟨hlt, hstart, hindex⟩ := startsBefore_getD hb
  generalize fn.blockStarts.getD b fn.instructions.length = start at hlt hstart hindex
  obtain ⟨h₁, h₂, h₃, h₄⟩ := nextStart_spec (show start + 1 ≤ fn.instructions.length from hlt)
    (show fn.instructions.length ≤ start + 1 + fn.instructions.length by omega)
  have hrange := (blockRange_eq h₁ h₂ hstart h₃ h₄).1
  rw [hindex] at hrange
  rw [hrange]
  exact ⟨h₁, h₂, hstart, fun j hj hj' => h₃ j hj hj', h₄⟩

theorem blockRange_snd (b : ℕ) : (fn.blockRange b).2 = (fn.blockRange (b + 1)).1 := rfl

/-- Block starts are in order. -/
theorem blockRange_mono (hb : b < c) (hc : c < fn.blockStarts.length) : (fn.blockRange b).1 < (fn.blockRange c).1 := by
  induction c with
  | zero => omega
  | succ c ih =>
    have hlt := (delimits_blockRange (show c < fn.blockStarts.length by omega)).lt
    rcases Nat.lt_or_eq_of_le (Nat.lt_succ_iff.mp hb) with hbc | rfl
    · exact (ih hbc (by omega)).trans hlt
    · exact hlt

/-- Blocks with the same start are the same. -/
theorem blockRange_inj (hb : b < fn.blockStarts.length) (hc : c < fn.blockStarts.length)
    (h : (fn.blockRange b).1 = (fn.blockRange c).1) : b = c := by
  rcases Nat.lt_trichotomy b c with hlt | heq | hgt
  · have := blockRange_mono hlt hc
    omega
  · exact heq
  · have := blockRange_mono hgt hb
    omega

/-- The first instruction of a block is where some block starts. -/
theorem exists_block (hlt : p < fn.instructions.length) (hstart : fn.startsBlock p = true) :
    ∃ b < fn.blockStarts.length, (fn.blockRange b).1 = p :=
  ⟨_, blockStarts_at hlt hstart⟩

/-- Behind a jump, a return or a branch a block starts. -/
theorem startsBlock_succ (h : (fn.insn p).isTerminator = true ∨ (fn.insn p).isBranch = true) :
    fn.startsBlock (p + 1) = true := by
  unfold Function.startsBlock
  rw [decide_eq_true_iff, Nat.add_sub_cancel]
  exact Or.inr (Or.inr h)

/-- Only the last instruction of a block is a jump, a return or a branch. -/
theorem not_ends_inside (hb : b < fn.blockStarts.length) (hp : (fn.blockRange b).1 ≤ p)
    (hp' : p + 1 < (fn.blockRange b).2) : (fn.insn p).isTerminator = false ∧ (fn.insn p).isBranch = false := by
  have hinside := (delimits_blockRange hb).inside (p + 1) (by omega) hp'
  constructor
  · by_contra hterm
    rw [startsBlock_succ (Or.inl (by simpa using hterm))] at hinside
    cases hinside
  · by_contra hbranch
    rw [startsBlock_succ (Or.inr (by simpa using hbranch))] at hinside
    cases hinside

theorem startsBlock_label (h : (fn.insn p).op = .label) : fn.startsBlock p = true := by
  unfold Function.startsBlock
  rw [decide_eq_true_iff]
  exact Or.inr (Or.inl h)

/-! ## Labels -/

/-- The label of a block is the one it starts with. -/
theorem blockLabel_eq_some_iff (hb : b < fn.blockStarts.length) {name : String} :
    fn.blockLabel b = some name ↔ fn.LabelAt (fn.blockRange b).1 name := by
  have hblock := delimits_blockRange hb
  rw [blockLabel_eq rfl hblock.lt hblock.le]
  split
  · next hop => exact (and_iff_right hop).symm
  · next hop => exact ⟨fun h => (some_ne_none _ h.symm).elim, fun h => absurd h.1 hop⟩

/-- The block of a label starts where the label stands. -/
theorem findLabelBlock_iff (hb : b < fn.blockStarts.length) {label : Option String} :
    fn.findLabelBlock label = some b ↔ fn.findLabel label = some (fn.blockRange b).1 := by
  cases label with
  | none => exact ⟨fun h => (some_ne_none _ h.symm).elim, fun h => (some_ne_none _ h.symm).elim⟩
  | some name =>
    have hblock : fn.findLabelBlock (some name) = some b ↔
        fn.blockLabel b = some name ∧ ∀ c < b, fn.blockLabel c ≠ some name := by
      unfold Function.findLabelBlock
      rw [bind_some, find?_eq_some_iff_getElem]
      constructor
      · rintro ⟨hlabel, c, hc, hcb, hbefore⟩
        rw [getElem_range] at hcb
        subst hcb
        refine ⟨of_decide_eq_true hlabel, fun d hd => ?_⟩
        have := hbefore d hd
        simpa using this
      · rintro ⟨hlabel, hbefore⟩
        refine ⟨decide_eq_true hlabel, b, by rwa [length_range], getElem_range _, fun d hd => ?_⟩
        simpa using hbefore d hd
    rw [hblock, Function.findLabel_eq_some_iff, blockLabel_eq_some_iff hb]
    refine and_congr_right fun _ => ⟨fun hbefore k hk hlabel => ?_, fun hbefore c hc hlabel => ?_⟩
    · obtain ⟨c, hc, rfl⟩ := exists_block hlabel.lt (startsBlock_label hlabel.1)
      have hcb : c < b := by
        by_contra hle
        rcases Nat.lt_or_eq_of_le (Nat.not_lt.mp hle) with hlt | rfl
        · have := blockRange_mono hlt hc
          omega
        · omega
      exact hbefore c hcb ((blockLabel_eq_some_iff hc).mpr hlabel)
    · rw [blockLabel_eq_some_iff (hc.trans hb)] at hlabel
      exact hbefore _ (blockRange_mono hc hb) hlabel

/-! ## Edges -/

section

variable (hb : b < fn.blockStarts.length)
include hb

/-- Control goes from a block to the start of one at the block's last instruction. -/
theorem passes_last (hc : c < fn.blockStarts.length) (hp : (fn.blockRange b).1 ≤ p) (hp' : p < (fn.blockRange b).2)
    (h : fn.Passes p (fn.blockRange c).1) : p + 1 = (fn.blockRange b).2 := by
  have hblock := delimits_blockRange hb
  obtain ⟨-, -, hcase⟩ := h
  by_contra hne
  have hinside := hblock.inside (p + 1) (by omega) (by omega)
  rcases hcase with ⟨-, hnext⟩ | ⟨hop, -⟩
  · rw [← hnext, (delimits_blockRange hc).starts] at hinside
    cases hinside
  · rw [startsBlock_succ] at hinside
    · cases hinside
    · rcases hop with hop | hop
      · exact Or.inl (by simp [Inst.isTerminator, hop])
      · exact Or.inr hop

/-- The last instruction of a block that is not a `NOP` is its last one, or it is neither a jump, a return nor
a branch. -/
theorem lastNonNop_cases {z : ℕ} (hz : z + 1 = (fn.blockRange b).2) : ((fn.insn z).op ≠ .nop ∧
        ((fn.blockInstructions b).filter fun i => i.op ≠ .nop).getLast? = some (fn.insn z)) ∨
      ((fn.insn z).op = .nop ∧ ∀ last, ((fn.blockInstructions b).filter fun i => i.op ≠ .nop).getLast? = some last →
        last.isTerminator = false ∧ last.isBranch = false) := by
  have hblock := delimits_blockRange hb
  have hlt := hblock.lt
  rw [blockInstructions_eq, show (fn.blockRange b).2 - (fn.blockRange b).1 = z - (fn.blockRange b).1 + 1 by omega,
    range_succ, map_append, map_singleton, show (fn.blockRange b).1 + (z - (fn.blockRange b).1) = z by omega,
    filter_append, filter_singleton]
  by_cases hnop : (fn.insn z).op = .nop
  · refine Or.inr ⟨hnop, fun last hlast => ?_⟩
    simp only [hnop, ne_eq, not_true_eq_false, decide_false, cond_false, append_nil] at hlast
    obtain ⟨hmem, -⟩ := mem_filter.mp (mem_of_getLast? hlast)
    obtain ⟨offset, hoffset, rfl⟩ := List.mem_map.mp hmem
    rw [mem_range] at hoffset
    apply not_ends_inside hb <;> omega
  · exact Or.inl ⟨hnop, by simp [hnop]⟩

/-- The last instruction of a block decides its edges. -/
theorem mem_blockSuccessors_iff (hc : c < fn.blockStarts.length) {z : ℕ} (hz : z + 1 = (fn.blockRange b).2) :
    c ∈ fn.blockSuccessors b ↔ fn.Passes z (fn.blockRange c).1 := by
  have hblock := delimits_blockRange hb
  have hle := hblock.le
  have hcblock := delimits_blockRange hc
  have hclt : (fn.blockRange c).1 < fn.instructions.length := by
    have := hcblock.lt
    have := hcblock.le
    omega
  have hzlt : z < fn.instructions.length := by omega
  -- The edge to the next block is where the last instruction falls through.
  have hnext : (c ∈ if b + 1 < fn.blockStarts.length then [b + 1] else []) ↔ (fn.blockRange c).1 = z + 1 := by
    rw [hz, blockRange_snd]
    split
    · next h =>
      rw [mem_singleton]
      exact ⟨fun heq => heq ▸ rfl, fun heq => blockRange_inj hc h heq⟩
    · next h =>
      refine ⟨fun hmem => absurd hmem not_mem_nil, fun heq => ?_⟩
      have hend : (fn.blockRange (b + 1)).1 = fn.instructions.length := getD_eq_default _ _ (by omega)
      omega
  have htarget : ∀ label, c ∈ (fn.findLabelBlock label).toList ↔ fn.findLabel label = some (fn.blockRange c).1 := by
    intro label
    rw [mem_toList, findLabelBlock_iff hc]
  have hpasses : fn.Passes z (fn.blockRange c).1 ↔
      (((fn.insn z).isTerminator = false ∧ (fn.blockRange c).1 = z + 1) ∨
        (((fn.insn z).op = .jump ∨ (fn.insn z).isBranch) ∧ fn.findLabel (fn.insn z).text = some (fn.blockRange c).1)) :=
    and_iff_right hzlt |>.trans (and_iff_right hclt)
  rw [hpasses]
  unfold Function.blockSuccessors
  rcases lastNonNop_cases hb hz with ⟨hnop, hlast⟩ | ⟨hnop, hlast⟩
  · rw [hlast]
    dsimp only
    by_cases hjump : (fn.insn z).op = .jump
    · rw [if_pos hjump, htarget]
      simp [Inst.isTerminator, Inst.isBranch, hjump]
    rw [if_neg hjump]
    by_cases hbranch : (fn.insn z).isBranch = true
    · have hterm : (fn.insn z).isTerminator = false := by
        unfold Inst.isTerminator
        rcases of_decide_eq_true hbranch with hop | hop <;> simp [hop]
      rw [if_pos hbranch, mem_dedup, mem_append, htarget, hnext, or_comm]
      simp [hterm, hbranch]
    rw [if_neg hbranch]
    by_cases hreturn : (fn.insn z).op = .return
    · rw [if_pos hreturn]
      simp [Inst.isTerminator, Inst.isBranch, hreturn]
    · rw [if_neg hreturn, hnext]
      simp [Inst.isTerminator, hjump, hreturn, hbranch]
  · have hopen : (fn.insn z).isTerminator = false ∧ (fn.insn z).isBranch = false := by
      simp [Inst.isTerminator, Inst.isBranch, hnop]
    have hzjump : (fn.insn z).op ≠ .jump := by simp [hnop]
    have hgoal : (c ∈ if b + 1 < fn.blockStarts.length then [b + 1] else []) ↔
        (((fn.insn z).isTerminator = false ∧ (fn.blockRange c).1 = z + 1) ∨
          (((fn.insn z).op = .jump ∨ (fn.insn z).isBranch) ∧
            fn.findLabel (fn.insn z).text = some (fn.blockRange c).1)) := by
      rw [hnext]
      simp [hopen.1, hopen.2, hzjump]
    cases hl : ((fn.blockInstructions b).filter fun i => i.op ≠ .nop).getLast? with
    | none => exact hgoal
    | some last =>
      obtain ⟨hterm, hbranch⟩ := hlast last hl
      have hops : last.op ≠ .jump ∧ last.op ≠ .return := by
        simpa [Inst.isTerminator] using hterm
      dsimp only
      rw [if_neg hops.1, if_neg (by simp [hbranch]), if_neg hops.2]
      exact hgoal

/-- The edges of a block come from its last instruction. -/
theorem mem_blockSuccessors (hc : c < fn.blockStarts.length) : c ∈ fn.blockSuccessors b ↔
      ∃ p, (fn.blockRange b).1 ≤ p ∧ p < (fn.blockRange b).2 ∧ fn.Passes p (fn.blockRange c).1 := by
  have hlt := (delimits_blockRange hb).lt
  have hz : (fn.blockRange b).2 - 1 + 1 = (fn.blockRange b).2 := by omega
  rw [mem_blockSuccessors_iff hb hc hz]
  constructor
  · exact fun h => ⟨_, by omega, by omega, h⟩
  · rintro ⟨p, hp, hp', h⟩
    have hlast := passes_last hb hc hp hp' h
    rwa [show (fn.blockRange b).2 - 1 = p by omega]

end

theorem lt_of_mem_blockSuccessors (h : c ∈ fn.blockSuccessors b) : c < fn.blockStarts.length := by
  have hnext : (c ∈ if b + 1 < fn.blockStarts.length then [b + 1] else []) → c < fn.blockStarts.length := by
    split
    · next hlt => exact fun hmem => mem_singleton.mp hmem ▸ hlt
    · exact fun hmem => absurd hmem not_mem_nil
  have htarget : ∀ {label}, c ∈ (fn.findLabelBlock label).toList → c < fn.blockStarts.length := by
    intro label hmem
    rw [mem_toList] at hmem
    obtain ⟨name, -, hfind⟩ := bind_eq_some_iff.mp hmem
    exact mem_range.mp (List.mem_of_find?_eq_some hfind)
  unfold Function.blockSuccessors at h
  generalize (if b + 1 < fn.blockStarts.length then [b + 1] else []) = next at h hnext
  split at h
  · exact hnext h
  · split_ifs at h with hjump hbranch hlast
    · exact htarget h
    · rcases mem_append.mp (mem_dedup.mp h) with hmem | hmem
      · exact htarget hmem
      · exact hnext hmem
    · exact absurd h not_mem_nil
    · exact hnext h

theorem nodup_blockSuccessors (b : ℕ) : (fn.blockSuccessors b).Nodup := by
  have htarget : ∀ label, (fn.findLabelBlock label).toList.Nodup := by
    intro label
    cases fn.findLabelBlock label with
    | none => exact nodup_nil
    | some b => exact nodup_singleton b
  have hnext : (if b + 1 < fn.blockStarts.length then [b + 1] else []).Nodup := by
    split
    · exact nodup_singleton _
    · exact nodup_nil
  unfold Function.blockSuccessors
  generalize (if b + 1 < fn.blockStarts.length then [b + 1] else []) = next at hnext
  split
  · exact hnext
  · split_ifs
    · exact htarget _
    · exact nodup_dedup _
    · exact nodup_nil
    · exact hnext

/-! ## The instructions in order -/

/-- The blocks before one are the instructions before its first one. -/
theorem flatMap_blockRange (hb : b ≤ fn.blockStarts.length) : (range b).flatMap (fun c =>
        range' (fn.blockRange c).1 ((fn.blockRange c).2 - (fn.blockRange c).1)) =
      range (fn.blockRange b).1 := by
  induction b with
  | zero =>
    suffices hzero : (fn.blockRange 0).1 = 0 by rw [hzero]; rfl
    exact getD_blockStarts (Nat.zero_le _) fun _ => by simp [Function.startsBlock]
  | succ b ih =>
    have hlt := (delimits_blockRange (Nat.lt_of_succ_le hb)).lt
    have happend : range' 0 (fn.blockRange b).1 ++
        range' (0 + (fn.blockRange b).1) ((fn.blockRange b).2 - (fn.blockRange b).1) =
          range' 0 ((fn.blockRange b).1 + ((fn.blockRange b).2 - (fn.blockRange b).1)) :=
      range'_append_1
    rw [range_succ, flatMap_append, ih (Nat.le_of_succ_le hb), flatMap_singleton,
      range_eq_range', ← blockRange_snd, range_eq_range']
    rwa [Nat.zero_add, Nat.add_sub_cancel' hlt.le] at happend

end Cfg

/-! ## Exactness -/

/-- An instruction that every host lets through, either way if it is a branch: a branch that tests a variable,
against a literal or another variable. -/
def Inst.isOpen (i : Inst) : Bool :=
  match i.op with
  | .nop | .label | .jump => true
  | .branchZero => i.lhs.var.isSome
  | .branchEq => i.lhs.var.isSome ∧ (i.rhs.kind = .int ∨ (i.rhs.var.isSome ∧ i.rhs.var ≠ i.lhs.var))
  | _ => false

/-- The instructions of a block. -/
def BasicBlock.Holds (b : BasicBlock) (p : ℕ) : Prop :=
  b.firstInstruction ≤ p ∧ p < b.firstInstruction + b.instructionCount

/-- A graph that is exact for the instructions of a function. -/
structure Function.CfgExact (fn : Function) (blocks : List BasicBlock) : Prop where
  /-- The blocks cut the instructions in order. -/
  partition : blocks.flatMap (fun b => List.range' b.firstInstruction b.instructionCount) =
    List.range fn.instructions.length
  nonempty : ∀ b ∈ blocks, 0 < b.instructionCount
  /-- Control reaches an instruction behind the first of a block from the one before it only. -/
  enters : ∀ b ∈ blocks, ∀ p q, fn.Passes p q → b.Holds q → q ≠ b.firstInstruction → p + 1 = q
  /-- Control goes somewhere else only where nothing but `NOP`s follow in the block. -/
  leaves : ∀ b ∈ blocks, ∀ p r, b.Holds p → b.Holds r → p < r → (fn.insn r).op ≠ .nop →
    (fn.insn p).op ≠ .return ∧ ∀ q, fn.Passes p q → q = p + 1
  /-- The edges are where control can pass to the start of a block. -/
  edges : ∀ b ∈ blocks, ∀ j, j ∈ b.successors ↔
    j < blocks.length ∧ ∃ p, b.Holds p ∧ fn.Passes p (blocks.getD j default).firstInstruction
  mirrored : ∀ i j, i < blocks.length → j < blocks.length →
    (j ∈ (blocks.getD i default).successors ↔ i ∈ (blocks.getD j default).predecessors)
  predecessors : ∀ b ∈ blocks, ∀ i ∈ b.predecessors, i < blocks.length
  once : ∀ b ∈ blocks, b.successors.Nodup ∧ b.predecessors.Nodup

theorem Function.length_blocks : fn.blocks.length = fn.blockStarts.length := by
  rw [blocks, length_map, length_range]

/-- A block of the graph by its number. -/
theorem Function.getD_blocks {b : ℕ} (hb : b < fn.blockStarts.length) : fn.blocks.getD b default =
      { firstInstruction := (fn.blockRange b).1
        instructionCount := (fn.blockRange b).2 - (fn.blockRange b).1
        label := fn.blockLabel b
        successors := fn.blockSuccessors b
        predecessors := fn.blockPredecessors b } := by
  rw [blocks, getD_eq_getElem _ _ (by rwa [length_map, length_range]), getElem_map, getElem_range]

/-- A block of the graph by its number. -/
theorem Function.mem_blocks {block : BasicBlock} (h : block ∈ fn.blocks) :
    ∃ b < fn.blockStarts.length, block = fn.blocks.getD b default := by
  obtain ⟨b, hb, rfl⟩ := mem_iff_getElem.mp h
  exact ⟨b, by rwa [length_blocks] at hb, (getD_eq_getElem _ _ hb).symm⟩

/-- The instructions of a block are those of its range. -/
theorem Function.holds_blocks {b p : ℕ} (hb : b < fn.blockStarts.length) :
    (fn.blocks.getD b default).Holds p ↔ (fn.blockRange b).1 ≤ p ∧ p < (fn.blockRange b).2 := by
  have hlt := (Cfg.delimits_blockRange hb).lt
  rw [getD_blocks hb]
  unfold BasicBlock.Holds
  rw [Nat.add_sub_cancel' hlt.le]

/-- An instruction that a label names is the first of a block. -/
theorem Cfg.startsBlock_findLabel {label : Option String} {q : ℕ} (h : fn.findLabel label = some q) :
    fn.startsBlock q = true := by
  cases label with
  | none => exact (some_ne_none _ h.symm).elim
  | some name => exact startsBlock_label (Function.findLabel_eq_some_iff.mp h).1.1

/-- The graph that a pass reads is exact. -/
theorem blocks_exact : fn.CfgExact fn.blocks where
  partition := by
    have hblocks := Cfg.flatMap_blockRange (le_refl fn.blockStarts.length)
    have hend : (fn.blockRange fn.blockStarts.length).1 = fn.instructions.length :=
      getD_eq_default _ _ le_rfl
    rw [hend] at hblocks
    rw [Function.blocks, flatMap_map]
    exact hblocks
  nonempty block hblock := by
    obtain ⟨b, hb, rfl⟩ := Function.mem_blocks hblock
    have hlt := (Cfg.delimits_blockRange hb).lt
    rw [Function.getD_blocks hb]
    exact Nat.sub_pos_of_lt hlt
  enters block hblock p q hpass hq hne := by
    obtain ⟨b, hb, rfl⟩ := Function.mem_blocks hblock
    rw [Function.holds_blocks hb] at hq
    rw [Function.getD_blocks hb] at hne
    -- a block is entered in the middle only by falling through: no label stands inside it
    have hinside := (Cfg.delimits_blockRange hb).inside q (lt_of_le_of_ne hq.1 (Ne.symm hne)) hq.2
    rcases hpass.2.2 with ⟨-, hnext⟩ | ⟨-, hlabel⟩
    · exact hnext.symm
    · rw [Cfg.startsBlock_findLabel hlabel] at hinside
      cases hinside
  leaves block hblock p r hp hr hlt _ := by
    obtain ⟨b, hb, rfl⟩ := Function.mem_blocks hblock
    rw [Function.holds_blocks hb] at hp hr
    -- nothing that branches or returns stands before the last instruction of a block
    obtain ⟨hterm, hbranch⟩ := Cfg.not_ends_inside hb hp.1 (by omega)
    have hops : (fn.insn p).op ≠ .jump ∧ (fn.insn p).op ≠ .return := by
      simpa [Inst.isTerminator] using hterm
    refine ⟨hops.2, fun q hpass => ?_⟩
    rcases hpass.2.2 with ⟨-, hnext⟩ | ⟨hop | hop, -⟩
    · exact hnext
    · exact absurd hop hops.1
    · rw [hbranch] at hop
      cases hop
  edges block hblock c := by
    obtain ⟨b, hb, rfl⟩ := Function.mem_blocks hblock
    simp only [Function.holds_blocks hb, and_assoc]
    rw [Function.getD_blocks hb, Function.length_blocks]
    constructor
    · intro h
      have hc := Cfg.lt_of_mem_blockSuccessors h
      rw [Function.getD_blocks hc]
      exact ⟨hc, (Cfg.mem_blockSuccessors hb hc).mp h⟩
    · rintro ⟨hc, h⟩
      rw [Function.getD_blocks hc] at h
      exact (Cfg.mem_blockSuccessors hb hc).mpr h
  mirrored i j hi hj := by
    rw [Function.length_blocks] at hi hj
    rw [Function.getD_blocks hi, Function.getD_blocks hj]
    dsimp only
    rw [Function.blockPredecessors, mem_filter, decide_eq_true_iff, mem_range]
    exact (and_iff_right hi).symm
  predecessors block hblock i hi := by
    obtain ⟨b, hb, rfl⟩ := Function.mem_blocks hblock
    rw [Function.getD_blocks hb] at hi
    rw [Function.length_blocks]
    exact mem_range.mp (mem_filter.mp hi).1
  once block hblock := by
    obtain ⟨b, hb, rfl⟩ := Function.mem_blocks hblock
    rw [Function.getD_blocks hb]
    exact ⟨Cfg.nodup_blockSuccessors b, nodup_range.filter _⟩

/-! ## Executions -/

/-- An execution goes on inside a block or along an edge. -/
theorem step_blocks {W : Type} {H : Host W} {b p q : ℕ} {s t : State W} (hb : b < fn.blocks.length)
    (hp : (fn.blocks.getD b default).Holds p) (hq : q < fn.instructions.length)
    (h : step H fn (.at p s) = some (.at q t)) :
    ((fn.blocks.getD b default).Holds q ∧ q = p + 1) ∨
      ∃ j ∈ (fn.blocks.getD b default).successors, (fn.blocks.getD j default).firstInstruction = q := by
  have hpass := passes_of_step h hq
  have hmem : fn.blocks.getD b default ∈ fn.blocks := by
    rw [getD_eq_getElem _ _ hb]
    exact getElem_mem hb
  rw [Function.length_blocks] at hb
  by_cases hstart : fn.startsBlock q = true
  · obtain ⟨j, hj, rfl⟩ := Cfg.exists_block hq hstart
    have hfirst : (fn.blocks.getD j default).firstInstruction = (fn.blockRange j).1 := by
      rw [Function.getD_blocks hj]
    refine Or.inr ⟨j, ?_, hfirst⟩
    rw [blocks_exact.edges _ hmem, Function.length_blocks, hfirst]
    exact ⟨hj, p, hp, hpass⟩
  · left
    rw [Function.holds_blocks hb] at hp ⊢
    have hblock := Cfg.delimits_blockRange hb
    rcases hpass.2.2 with ⟨-, rfl⟩ | ⟨-, hlabel⟩
    · refine ⟨⟨by omega, ?_⟩, rfl⟩
      by_contra hle
      have hend : p + 1 = (fn.blockRange b).2 := by omega
      rw [hend] at hstart hq
      exact hstart (hblock.next hq)
    · exact absurd (Cfg.startsBlock_findLabel hlabel) hstart

/-- The variables of a frame by their values. -/
def State.ofValues {W : Type} (w : W) (values : String → Value) : State W where
  env x := some { value := values x }
  world := w

/-- The value of a variable in a state that is made up for it. -/
theorem State.fetch_ofValues {W : Type} {H : Host W} {w : W} {values : String → Value} {o : Operand} {x : String}
    (h : o.var = some x) : (State.ofValues w values).fetch H o = some (values x) := by
  unfold Operand.var at h
  split at h
  · next hkind =>
    unfold State.fetch
    rcases hkind with hkind | hkind <;> rw [hkind, h] <;> rfl
  · cases h

/-- Two values that a branch tells apart from a third one. -/
theorem exists_branchEq {W : Type} {H : Host W} {i : Inst} {x : String} (w : W) (hx : i.lhs.var = some x)
    (hrhs : i.rhs.kind = .int ∨ (i.rhs.var.isSome ∧ i.rhs.var ≠ i.lhs.var)) (equal : Bool) :
    ∃ s : State W, s.world = w ∧ s.branchEq H i = some equal := by
  have htest : ∀ (a b : BitVec 64), (a = b ↔ equal = true) → ∀ s : State W, s.fetch H i.lhs = some (.ofInt a) →
      s.fetch H i.rhs = some (.ofInt b) → s.branchEq H i = some equal := by
    intro a b hab s ha hb
    unfold State.branchEq
    rw [ha, hb]
    simp [Value.ofInt, hab]
  rcases hrhs with hkind | ⟨hsome, hne⟩
  · have hb : ∀ s : State W, s.fetch H i.rhs = some (.ofInt i.rhs.intValue) := by
      intro s
      unfold State.fetch
      rw [hkind]
    refine ⟨.ofValues w fun _ => .ofInt (if equal then i.rhs.intValue else i.rhs.intValue + 1), rfl,
      htest _ _ ?_ _ (State.fetch_ofValues hx) (hb _)⟩
    cases equal <;> simp
  · obtain ⟨y, hy⟩ := isSome_iff_exists.mp hsome
    have hxy : x ≠ y := by
      rintro rfl
      exact hne (hy.trans hx.symm)
    refine ⟨.ofValues w fun z => .ofInt (if z = x ∧ equal = false then 1 else 0), rfl,
      htest _ _ ?_ _ (State.fetch_ofValues hx) (State.fetch_ofValues hy)⟩
    cases equal <;> simp [hxy.symm]

/-- An open instruction that is not a jump lets control through to the next one. -/
theorem exists_leave_next {W : Type} {H : Host W} {i : Inst} (w : W) (hopen : i.isOpen = true)
    (hterm : i.isTerminator = false) : ∃ s : State W, s.world = w ∧ s.leave H fn i = some (.next s) := by
  unfold Inst.isOpen at hopen
  unfold State.leave
  split at hopen
  · next hop =>
    refine ⟨.ofValues w fun _ => .poison, rfl, ?_⟩
    simp [State.exec, hop, State.effect, State.storeAll]
  · next hop =>
    refine ⟨.ofValues w fun _ => .poison, rfl, ?_⟩
    simp [State.exec, hop, State.effect, State.storeAll]
  · next hop =>
    simp [Inst.isTerminator, hop] at hterm
  · next hop =>
    obtain ⟨x, hx⟩ := isSome_iff_exists.mp hopen
    refine ⟨.ofValues w fun _ => .ofInt 1, rfl, ?_⟩
    rw [hop]
    simp [State.fetch_ofValues hx, Value.truth, Value.ofInt]
  · next hop =>
    obtain ⟨hsome, hrhs⟩ := of_decide_eq_true hopen
    obtain ⟨x, hx⟩ := isSome_iff_exists.mp hsome
    obtain ⟨s, hw, hequal⟩ := exists_branchEq (H := H) w hx hrhs false
    refine ⟨s, hw, ?_⟩
    rw [hop]
    simp [hequal]
  · cases hopen

/-- An open jump or branch lets control through to its label. -/
theorem exists_leave_goto {W : Type} {H : Host W} {i : Inst} (w : W) (hopen : i.isOpen = true)
    (hbranch : i.op = .jump ∨ i.isBranch = true) :
    ∃ s : State W, s.world = w ∧ s.leave H fn i = some (.goto i.text s) := by
  unfold Inst.isOpen at hopen
  unfold State.leave
  split at hopen
  · next hop => simp [Inst.isBranch, hop] at hbranch
  · next hop => simp [Inst.isBranch, hop] at hbranch
  · next hop =>
    refine ⟨.ofValues w fun _ => .poison, rfl, ?_⟩
    rw [hop]
  · next hop =>
    obtain ⟨x, hx⟩ := isSome_iff_exists.mp hopen
    refine ⟨.ofValues w fun _ => .ofInt 0, rfl, ?_⟩
    rw [hop]
    simp [State.fetch_ofValues hx, Value.truth, Value.ofInt]
  · next hop =>
    obtain ⟨hsome, hrhs⟩ := of_decide_eq_true hopen
    obtain ⟨x, hx⟩ := isSome_iff_exists.mp hsome
    obtain ⟨s, hw, hequal⟩ := exists_branchEq (H := H) w hx hrhs true
    refine ⟨s, hw, ?_⟩
    rw [hop]
    simp [hequal]
  · cases hopen

/-- Where control can pass, an execution does, if the instruction is open. -/
theorem exists_step_of_isOpen {p q : ℕ} (hpass : fn.Passes p q) (hopen : (fn.insn p).isOpen = true) {W : Type}
    (H : Host W) (w : W) : ∃ s t : State W, s.world = w ∧ step H fn (.at p s) = some (.at q t) := by
  obtain ⟨hp, -, hcase⟩ := hpass
  rcases hcase with ⟨hterm, rfl⟩ | ⟨hbranch, hlabel⟩
  · obtain ⟨s, hw, hleave⟩ := @exists_leave_next fn _ H _ w hopen hterm
    exact ⟨s, s, hw, by rw [step_eq_land hp, hleave]; rfl⟩
  · obtain ⟨s, hw, hleave⟩ := @exists_leave_goto fn _ H _ w hopen hbranch
    exact ⟨s, s, hw, by rw [step_eq_land hp, hleave, bind_some, Exit.land, hlabel, map_some]⟩

/-- The graph that `ir_function_rebuild_cfg` builds is exact, and executions go along it. -/
theorem Cfg.rebuild_exact (hash : String → ℕ) (fn : Function) :
    ∃ blocks, Cfg.rebuild hash fn = some blocks ∧ fn.CfgExact blocks ∧
      (∀ b p q, b < blocks.length → (blocks.getD b default).Holds p → q < fn.instructions.length →
        ∀ (W : Type) (H : Host W) (s t : State W), step H fn (.at p s) = some (.at q t) →
          ((blocks.getD b default).Holds q ∧ q = p + 1) ∨
            ∃ j ∈ (blocks.getD b default).successors, (blocks.getD j default).firstInstruction = q) ∧
      (∀ p q, fn.Passes p q → (fn.insn p).isOpen = true → ∀ (W : Type) (H : Host W) (w : W),
        ∃ s t : State W, s.world = w ∧ step H fn (.at p s) = some (.at q t)) ∧
      (∀ p q, fn.Passes p q → (fn.insn p).op.isControl = false → ∀ (W : Type) (H : Host W) (s t : State W),
        s.exec H fn (fn.insn p) = some t → step H fn (.at p s) = some (.at q t)) := by
  refine ⟨fn.blocks, rebuild_eq hash fn, blocks_exact, ?_, ?_, ?_⟩
  · intro b p q hb hp hq W H s t h
    exact step_blocks hb hp hq h
  · intro p q hpass hopen W H w
    exact exists_step_of_isOpen hpass hopen H w
  · rintro p q ⟨hp, -, hcase⟩ hcontrol W H s t hexec
    have hnext : q = p + 1 := by
      rcases hcase with ⟨-, hnext⟩ | ⟨hop | hbranch, -⟩
      · exact hnext
      · rw [hop] at hcontrol
        cases hcontrol
      · rcases of_decide_eq_true hbranch with hop | hop <;> rw [hop] at hcontrol <;> cases hcontrol
    rw [step_exec hp hcontrol, hexec, Option.map_some, hnext]

/-- A function whose branch tests a literal. -/
def constantBranch : Function where
  instructions := [
    { op := .branchZero, lhs := .ofInt 1, text := some "a" },
    { op := .label, text := some "b" },
    { op := .label, text := some "a" }]

/-- The edge to the label stays though no execution takes it. -/
theorem Cfg.rebuild_keeps_untaken_edge :
    ∃ blocks, (∀ hash, Cfg.rebuild hash constantBranch = some blocks) ∧ 2 ∈ (blocks.getD 0 default).successors ∧
      (blocks.getD 2 default).firstInstruction = 2 ∧
      ∀ p, (blocks.getD 0 default).Holds p → ∀ (W : Type) (H : Host W) (s t : State W),
        step H constantBranch (.at p s) ≠ some (.at 2 t) := by
  refine ⟨constantBranch.blocks, fun hash => rebuild_eq hash constantBranch, by decide, by decide, ?_⟩
  intro p hp W H s t h
  have hzero : p = 0 := by
    have hfirst : constantBranch.blocks.getD 0 default = { (constantBranch.blocks.getD 0 default) with
        firstInstruction := 0, instructionCount := 1 } := by decide
    rw [hfirst] at hp
    exact Nat.lt_one_iff.mp hp.2
  subst hzero
  simp [step, constantBranch, Function.insn, State.fetch, Operand.ofInt, Value.truth, Value.ofInt] at h

/-! ## Executions and dominators -/

/-- A block holds its first instruction. -/
theorem Function.holds_firstInstruction {b : ℕ} (hb : b < fn.blockStarts.length) :
    (fn.blocks.getD b default).Holds (fn.blocks.getD b default).firstInstruction := by
  have hlt := (Cfg.delimits_blockRange hb).lt
  rw [holds_blocks hb, getD_blocks hb]
  exact ⟨le_rfl, hlt⟩

/-- An instruction is in one block. -/
theorem Function.holds_unique {b c p : ℕ} (hb : b < fn.blockStarts.length) (hc : c < fn.blockStarts.length)
    (hbp : (fn.blocks.getD b default).Holds p) (hcp : (fn.blocks.getD c default).Holds p) : b = c := by
  have hle : ∀ {b c : ℕ}, b < c → c < fn.blockStarts.length → (fn.blockRange b).2 ≤ (fn.blockRange c).1 := by
    intro b c hlt hc
    rcases Nat.lt_or_ge (b + 1) c with hnext | hnext
    · exact (Cfg.blockRange_mono hnext hc).le
    · obtain rfl : c = b + 1 := by omega
      exact le_rfl
  rw [holds_blocks hb] at hbp
  rw [holds_blocks hc] at hcp
  rcases Nat.lt_trichotomy b c with hlt | heq | hlt
  · have := hle hlt hc
    omega
  · exact heq
  · have := hle hlt hb
    omega

/-- The first block starts with the first instruction. -/
theorem Function.firstInstruction_zero (h : 0 < fn.instructions.length) :
    (fn.blocks.getD 0 default).firstInstruction = 0 := by
  obtain ⟨b, hb, hfirst⟩ := Cfg.exists_block h (show fn.startsBlock 0 = true by simp [Function.startsBlock])
  rcases Nat.eq_zero_or_pos b with rfl | hpos
  · rw [getD_blocks hb]
    exact hfirst
  · have := Cfg.blockRange_mono hpos hb
    omega

/-- The blocks that a run has been in, behind one another, are a path of the graph. -/
theorem exists_pathTo_of_stepN {W : Type} {H : Host W} (hne : 0 < fn.blockStarts.length) {start s : State W} {n p : ℕ}
    (hp : p < fn.instructions.length) (h : stepN H fn n (.at 0 start) = some (.at p s)) :
    ∃ b l, (fn.flowGraph hne).flow.PathTo b l ∧ b < fn.blockStarts.length ∧ (fn.blocks.getD b default).Holds p ∧
      ∀ a ∈ l, ∃ m ≤ n, ∃ q t, stepN H fn m (.at 0 start) = some (.at q t) ∧
        (fn.blocks.getD a default).Holds q := by
  induction n generalizing p s with
  | zero =>
    cases h
    have hholds := Function.holds_firstInstruction hne
    rw [Function.firstInstruction_zero hp] at hholds
    refine ⟨0, [0], .root, hne, hholds, fun a ha => ⟨0, le_rfl, 0, _, rfl, ?_⟩⟩
    rw [mem_singleton.mp ha]
    exact hholds
  | succ n ih =>
    have hrun := h
    rw [stepN_add, bind_eq_some_iff] at h
    obtain ⟨c, hbefore, hlast⟩ := h
    rw [stepN, bind_eq_some_iff] at hlast
    obtain ⟨_, hstep, heq⟩ := hlast
    cases heq
    cases c with
    | returned v u => cases hstep
    | «at» q u =>
      obtain ⟨b, l, hpath, hb, hholds, hvisited⟩ := ih (step_cases hstep).1 hbefore
      have hearlier : ∀ a ∈ l, ∃ m ≤ n + 1, ∃ q t, stepN H fn m (.at 0 start) = some (.at q t) ∧
          (fn.blocks.getD a default).Holds q := by
        intro a ha
        obtain ⟨m, hm, hmore⟩ := hvisited a ha
        exact ⟨m, by omega, hmore⟩
      -- the last step stays in the block, or goes along an edge to the start of another
      rw [← Function.length_blocks] at hb
      rcases step_blocks hb hholds hp hstep with ⟨hinside, -⟩ | ⟨j, hj, rfl⟩
      · exact ⟨b, l, hpath, Function.length_blocks ▸ hb, hinside, hearlier⟩
      · have hjlt : j < fn.blockStarts.length := by
          rw [Function.getD_blocks (Function.length_blocks ▸ hb)] at hj
          exact Cfg.lt_of_mem_blockSuccessors hj
        have hfirst := Function.holds_firstInstruction hjlt
        have hedge : (fn.flowGraph hne).flow.edge b j :=
          ⟨hb, (@Function.length_blocks fn).symm ▸ hjlt, hj⟩
        refine ⟨j, j :: l, hpath.step hedge, hjlt, hfirst, fun a ha => ?_⟩
        rcases mem_cons.mp ha with rfl | ha
        · exact ⟨n + 1, le_rfl, _, s, hrun, hfirst⟩
        · exact hearlier a ha

/-- A run that is in a block has been in each of its dominators: what the tree of the graph of a function says about
the executions of the function. -/
theorem dominators_visited (hne : 0 < fn.blockStarts.length) :
    ∃ bound, ∀ fuel ≥ bound, ∃ dom, Dom.build fn.blocks 0 fuel = some dom ∧
      ∀ (W : Type) (H : Host W) (start s : State W) (n p : ℕ), stepN H fn n (.at 0 start) = some (.at p s) →
        ∀ a b, b < fn.blocks.length → (fn.blocks.getD b default).Holds p → dom.blockDominates a b = true →
          ∃ m ≤ n, ∃ q t, stepN H fn m (.at 0 start) = some (.at q t) ∧ (fn.blocks.getD a default).Holds q := by
  obtain ⟨bound, hbound⟩ := Dom.build_spec (fn.flowGraph hne)
  refine ⟨bound, fun fuel hfuel => ?_⟩
  obtain ⟨dom, order, hbuild, h⟩ := hbound fuel hfuel
  refine ⟨dom, hbuild, fun W H start s n p hrun a b hb hholds hdom => ?_⟩
  rw [Function.length_blocks] at hb
  have hp : p < fn.instructions.length := by
    have := (Function.holds_blocks hb).mp hholds
    have := @Cfg.blockRange_le fn b
    omega
  obtain ⟨c, l, hpath, hc, hholds', hvisited⟩ := exists_pathTo_of_stepN hne hp hrun
  obtain rfl := Function.holds_unique hb hc hholds hholds'
  obtain ⟨-, hreachable, habove⟩ := (h.blockDominates_iff a b).mp hdom
  exact hvisited a (((h.isTree.above_iff hreachable).mp habove).2 l hpath)

end Mettle.Ir

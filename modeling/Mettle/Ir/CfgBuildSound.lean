import Mettle.Ir.CfgBuild

/-!
# The control-flow graph that is built

`Cfg.rebuild_eq`: the flags, the cutting loop, the label index and the edges appended one by one give the
graph of `Function.blocks`, whatever the hash is.
-/

open List Option Function

namespace Mettle.Ir

open Mettle.Lib

variable {fn : Function}

namespace Cfg

variable {hash : String → ℕ} {labels : List LabelBlock} {slots : List ℕ} {k : ℕ}

/-! ## The label index -/

/-- The label at an index. -/
def labelOf (labels : List LabelBlock) (i : ℕ) : String := (labels.getD i default).label

/-- The first `k` labels are indexed: a taken slot holds the first label of its name, and the walk from the
hash of a label comes to it. -/
structure Indexed (hash : String → ℕ) (labels : List LabelBlock) (k : ℕ) (slots : List ℕ) : Prop where
  room : labels.length < slots.length
  taken : slots.countP (· ≠ 0) ≤ k
  first : ∀ s, slots.getD s 0 ≠ 0 → slots.getD s 0 - 1 < k ∧
    ∀ i < slots.getD s 0 - 1, labelOf labels i ≠ labelOf labels (slots.getD s 0 - 1)
  reached : ∀ i < k, (∀ j < i, labelOf labels j ≠ labelOf labels i) →
    Reaches slots (hash (labelOf labels i) % slots.length) (i + 1)

variable {i j m n start fuel stop b t : ℕ} {starts : List Bool}

/-- A label among the first ones has a first occurrence. -/
theorem exists_first {label : String} (h : labelOf labels i = label) :
    ∃ j ≤ i, labelOf labels j = label ∧ ∀ m < j, labelOf labels m ≠ label := by
  classical
  have hex : ∃ j, labelOf labels j = label := ⟨i, h⟩
  exact ⟨Nat.find hex, Nat.find_min' hex h, Nat.find_spec hex, fun m hm => Nat.find_min hex hm⟩

/-- The walk ends at the first label of the name, or at a free slot when there is none. -/
theorem Indexed.probeLabel (h : Indexed hash labels k slots) (hk : k ≤ labels.length) (label : String) :
    ∃ s < slots.length, probeLabel hash slots labels label = some s ∧
      ((slots.getD s 0 = 0 ∧ (∀ i < k, labelOf labels i ≠ label) ∧
          Reaches (slots.set s (k + 1)) (hash label % slots.length) (k + 1)) ∨
        (slots.getD s 0 ≠ 0 ∧ labelOf labels (slots.getD s 0 - 1) = label)) := by
  have hroom := h.room
  have htaken := h.taken
  have hstart : hash label % slots.length < slots.length := Nat.mod_lt _ (by omega)
  -- a slot is free, so the probe ends
  obtain ⟨t, ht, hzero⟩ := exists_free (show slots.countP (· ≠ 0) < slots.length by omega)
  obtain ⟨s, hs⟩ := isSome_iff_exists.mp (probe_isSome (fun s => decide (slots.getD s 0 = 0 ∨
    (labels.getD (slots.getD s 0 - 1) default).label = label)) hstart ht (decide_eq_true (Or.inl hzero)))
  obtain ⟨d, rfl, hstop, hbefore⟩ := probe_eq_some hstart hs
  have hlt : (hash label % slots.length + d) % slots.length < slots.length := Nat.mod_lt _ (by omega)
  have hwalk : ∀ d' < d, slots.getD ((hash label % slots.length + d') % slots.length) 0 ≠ 0 ∧
      labelOf labels (slots.getD ((hash label % slots.length + d') % slots.length) 0 - 1) ≠ label := by
    intro d' hd'
    have := of_decide_eq_false (hbefore d' hd')
    exact not_or.mp this
  refine ⟨_, hlt, hs, ?_⟩
  by_cases hfree : slots.getD ((hash label % slots.length + d) % slots.length) 0 = 0
  · refine Or.inl ⟨hfree, fun i hi hlabel => ?_, d, ?_, fun d' hd' => ?_⟩
    · -- The first label of the name would have stopped the walk.
      obtain ⟨j, hj, hjlabel, hjfirst⟩ := exists_first hlabel
      obtain ⟨e, he, hebefore⟩ := h.reached j (by omega) (by rwa [hjlabel])
      rw [hjlabel] at he hebefore
      rcases Nat.lt_trichotomy e d with hlt | rfl | hgt
      · apply (hwalk e hlt).2
        rw [he]
        exact hjlabel
      · rw [hfree] at he
        omega
      · exact hebefore d hgt hfree
    · rw [length_set, getD_set hlt, if_pos rfl]
    · rw [length_set, getD_set hlt]
      split
      · omega
      · exact (hwalk d' hd').1
  · exact Or.inr ⟨hfree, (of_decide_eq_true hstop).resolve_left hfree⟩

/-- Putting one more label into the index. -/
theorem Indexed.put (h : Indexed hash labels k slots) (hk : k < labels.length) :
    ∃ slots', labelIndexPut hash labels slots k = some slots' ∧ slots'.length = slots.length ∧
      Indexed hash labels (k + 1) slots' := by
  obtain ⟨s, hs, hprobe, hcase⟩ := h.probeLabel hk.le (labelOf labels k)
  refine ⟨_, by rw [labelIndexPut, show (labels.getD k default).label = labelOf labels k from rfl, hprobe]; rfl, ?_⟩
  dsimp only
  -- a free slot takes the label, a later one of the same name is not entered
  rcases hcase with ⟨hfree, hnew, hreach⟩ | ⟨htaken, hlabel⟩
  · rw [if_pos hfree, length_set]
    refine ⟨rfl, ?_, ?_, ?_, ?_⟩
    · rw [length_set]
      exact h.room
    · rw [countP_set_free hs hfree (by omega)]
      have := h.taken
      omega
    · intro t ht
      rw [getD_set hs] at ht ⊢
      split at ht
      · next heq =>
        rw [if_pos heq, Nat.add_sub_cancel]
        exact ⟨Nat.lt_succ_self k, hnew⟩
      · next hne =>
        rw [if_neg hne]
        obtain ⟨hlt, hfirst⟩ := h.first t ht
        exact ⟨by omega, hfirst⟩
    · intro i hi hfirst
      rw [length_set]
      rcases Nat.lt_or_eq_of_le (Nat.lt_succ_iff.mp hi) with hlt | rfl
      · exact (h.reached i hlt hfirst).set hs hfree (by omega) (by omega)
      · exact hreach
  · rw [if_neg htaken]
    refine ⟨rfl, h.room, h.taken.trans (Nat.le_succ k), fun t ht => ?_, fun i hi hfirst => ?_⟩
    · obtain ⟨hlt, hfirst⟩ := h.first t ht
      exact ⟨by omega, hfirst⟩
    · rcases Nat.lt_or_eq_of_le (Nat.lt_succ_iff.mp hi) with hlt | rfl
      · exact h.reached i hlt hfirst
      · exact absurd hlabel (hfirst _ (h.first s htaken).1)

/-- The index has room for twice the labels. -/
theorem le_labelCapacity (count : ℕ) (fuel capacity : ℕ) (hpos : 0 < capacity) (hfuel : count * 2 ≤ capacity + fuel) :
    count * 2 ≤ labelCapacity count fuel capacity := by
  induction fuel generalizing capacity with
  | zero => simpa [labelCapacity] using hfuel
  | succ fuel ih =>
    unfold labelCapacity
    split
    · exact ih (capacity * 2) (by omega) (by omega)
    · omega

/-- The loop over the labels ends, and indexes them all. -/
theorem labelIndexBuild_spec (hash : String → ℕ) (hne : labels.length ≠ 0) :
    ∃ slots, labelIndexBuild hash labels = some slots ∧ Indexed hash labels labels.length slots := by
  have hcapacity := le_labelCapacity labels.length (labels.length * 2) 16 (by omega) (by omega)
  have hloop : ∀ k ≤ labels.length, ∃ slots, (range k).foldlM (labelIndexPut hash labels)
      (replicate (labelCapacity labels.length (labels.length * 2) 16) 0) = some slots ∧
        Indexed hash labels k slots := by
    intro k hk
    induction k with
    | zero =>
      refine ⟨_, rfl, ?_, ?_, ?_, ?_⟩
      · rw [length_replicate]
        omega
      · simp
      · intro s hs
        simp [getD_eq_getElem?_getD, List.getElem?_replicate] at hs
        split at hs <;> simp at hs
      · intro i hi
        omega
    | succ k ih =>
      obtain ⟨slots, hslots, hinv⟩ := ih (by omega)
      obtain ⟨slots', hput, -, hinv'⟩ := hinv.put (show k < labels.length by omega)
      refine ⟨slots', ?_, hinv'⟩
      rw [range_succ, foldlM_append, hslots]
      simp [hput]
  obtain ⟨slots, hslots, hinv⟩ := hloop labels.length le_rfl
  refine ⟨slots, ?_, hinv⟩
  rw [labelIndexBuild, if_neg hne]
  exact hslots

/-- A label is found by its first block. -/
theorem findLabelBlock_eq (h : labelIndexBuild hash labels = some slots) (label : Option String) :
    findLabelBlock hash slots labels label =
      some (label.bind fun label => (labels.find? fun l => l.label = label).map (·.blockIndex)) := by
  cases label with
  | none => rfl
  | some label =>
    by_cases hne : labels.length = 0
    · rw [labelIndexBuild, if_pos hne] at h
      cases h
      obtain rfl := length_eq_zero_iff.mp hne
      rfl
    · obtain ⟨slots', hslots', hinv⟩ := labelIndexBuild_spec hash hne
      obtain rfl := some.inj (h.symm.trans hslots')
      obtain ⟨s, hs, hprobe, hcase⟩ := hinv.probeLabel le_rfl label
      rw [findLabelBlock, if_neg (by omega), hprobe, map_some, bind_some]
      congr 1
      rcases hcase with ⟨hfree, hnone, -⟩ | ⟨htaken, hlabel⟩
      · rw [if_pos hfree, eq_comm, map_eq_none_iff, find?_eq_none]
        intro l hl hlab
        obtain ⟨i, hi, rfl⟩ := mem_iff_getElem.mp hl
        apply hnone i hi
        rw [labelOf, getD_eq_getElem _ _ hi]
        exact of_decide_eq_true hlab
      · rw [if_neg htaken]
        obtain ⟨hlt, hfirst⟩ := hinv.first s htaken
        have hfind : labels.find? (fun l => l.label = label) = some (labels.getD (slots.getD s 0 - 1) default) := by
          rw [find?_eq_some_iff_getElem]
          refine ⟨decide_eq_true hlabel, _, hlt, (getD_eq_getElem _ _ hlt).symm, fun j hj => ?_⟩
          have := hfirst j hj
          rw [hlabel, labelOf, getD_eq_getElem _ _ (by omega)] at this
          simpa using this
        rw [hfind, map_some]

/-! ## The block starts -/

/-- There is one mark for each instruction. -/
theorem length_markStarts (starts : List Bool) (i : ℕ) : (markStarts fn starts i).length = starts.length := by
  unfold markStarts
  split <;> split <;> simp only [length_set]

/-- Setting a mark. -/
theorem getD_setTrue (hj : j < starts.length) :
    (starts.set i true).getD j false = (decide (j = i) || starts.getD j false) := by
  rw [getD_eq_getElem _ _ (by rwa [length_set]), getElem_set, getD_eq_getElem _ _ hj]
  by_cases h : i = j
  · simp [h]
  · simp [h, Ne.symm h]

/-- What an instruction marks: itself if it is a label, the next one if it leaves the block. -/
theorem getD_markStarts (hlength : starts.length = fn.instructions.length) (hj : j < fn.instructions.length) :
    (markStarts fn starts i).getD j false = (starts.getD j false || decide (j = i ∧ (fn.insn i).op = .label) ||
      decide (j = i + 1 ∧ ((fn.insn i).isTerminator ∨ (fn.insn i).isBranch))) := by
  have hlt : j < starts.length := hlength ▸ hj
  unfold markStarts
  by_cases hlabel : (fn.insn i).op = .label
  · rw [if_pos hlabel]
    split
    · next h =>
      rw [getD_setTrue (by rwa [length_set]), getD_setTrue hlt]
      simp only [hlabel, h.1, and_true]
      cases starts.getD j false <;> cases decide (j = i) <;> cases decide (j = i + 1) <;> rfl
    · next h =>
      have hnot : ¬ (j = i + 1 ∧ ((fn.insn i).isTerminator = true ∨ (fn.insn i).isBranch = true)) := fun hj' =>
        h ⟨hj'.2, by omega⟩
      rw [getD_setTrue hlt, decide_eq_false hnot, Bool.or_false]
      simp only [hlabel, and_true]
      exact Bool.or_comm _ _
  · rw [if_neg hlabel]
    have hnotLabel : ¬ (j = i ∧ (fn.insn i).op = .label) := fun h => hlabel h.2
    rw [decide_eq_false hnotLabel, Bool.or_false]
    split
    · next h =>
      rw [getD_setTrue hlt]
      simp only [h.1, and_true]
      exact Bool.or_comm _ _
    · next h =>
      have hnot : ¬ (j = i + 1 ∧ ((fn.insn i).isTerminator = true ∨ (fn.insn i).isBranch = true)) := fun hj' =>
        h ⟨hj'.2, by omega⟩
      rw [decide_eq_false hnot, Bool.or_false]

/-- The flags are set where blocks start. -/
theorem blockStarts_spec : (blockStarts fn).length = fn.instructions.length ∧
    ∀ j < fn.instructions.length, (blockStarts fn).getD j false = fn.startsBlock j := by
  have hloop : ∀ k, ∀ starts, starts = (range k).foldl (markStarts fn)
      ((replicate fn.instructions.length false).set 0 true) → starts.length = fn.instructions.length ∧
      ∀ j < fn.instructions.length, (starts.getD j false = true ↔ j = 0 ∨ (j < k ∧ (fn.insn j).op = .label) ∨
        (0 < j ∧ j - 1 < k ∧ ((fn.insn (j - 1)).isTerminator ∨ (fn.insn (j - 1)).isBranch))) := by
    intro k
    -- after `k` instructions the marks are those that the first `k` make
    induction k with
    | zero =>
      rintro starts rfl
      refine ⟨by simp, fun j hj => ?_⟩
      rw [range_zero, foldl_nil, getD_setTrue (by simpa using hj)]
      simp [getD_eq_getElem?_getD, hj]
    | succ k ih =>
      rintro starts rfl
      obtain ⟨hlength, hstarts⟩ := ih _ rfl
      rw [range_succ, foldl_append, foldl_cons, foldl_nil]
      refine ⟨by rw [length_markStarts, hlength], fun j hj => ?_⟩
      rw [getD_markStarts hlength hj, Bool.or_eq_true, Bool.or_eq_true, hstarts j hj, decide_eq_true_iff,
        decide_eq_true_iff]
      constructor
      · rintro (((h | h | h) | ⟨rfl, h⟩) | ⟨rfl, h⟩)
        · exact Or.inl h
        · exact Or.inr (Or.inl ⟨by omega, h.2⟩)
        · exact Or.inr (Or.inr ⟨h.1, by omega, h.2.2⟩)
        · exact Or.inr (Or.inl ⟨by omega, h⟩)
        · exact Or.inr (Or.inr ⟨by omega, by omega, h⟩)
      · rintro (h | ⟨hjk, h⟩ | ⟨hpos, hjk, h⟩)
        · exact Or.inl (Or.inl (Or.inl h))
        · rcases Nat.lt_or_ge j k with hlt | hge
          · exact Or.inl (Or.inl (Or.inr (Or.inl ⟨hlt, h⟩)))
          · obtain rfl : j = k := by omega
            exact Or.inl (Or.inr ⟨rfl, h⟩)
        · rcases Nat.lt_or_ge (j - 1) k with hlt | hge
          · exact Or.inl (Or.inl (Or.inr (Or.inr ⟨hpos, hlt, h⟩)))
          · obtain rfl : j = k + 1 := by omega
            exact Or.inr ⟨rfl, h⟩
  obtain ⟨hlength, hstarts⟩ := hloop fn.instructions.length _ rfl
  refine ⟨hlength, fun j hj => ?_⟩
  rw [Bool.eq_iff_iff]
  refine (hstarts j hj).trans ?_
  unfold Function.startsBlock
  rw [decide_eq_true_iff]
  constructor
  · rintro (h | h | h)
    · exact Or.inl h
    · exact Or.inr (Or.inl h.2)
    · exact Or.inr (Or.inr h.2.2)
  · rintro (h | h | h)
    · exact Or.inl h
    · exact Or.inr (Or.inl ⟨hj, h⟩)
    · rcases Nat.eq_zero_or_pos j with rfl | hpos
      · exact Or.inl rfl
      · exact Or.inr (Or.inr ⟨hpos, by omega, h⟩)

/-! ## The blocks -/

/-- The block starts before an index. -/
def startsBefore (fn : Function) (m : ℕ) : List ℕ := (List.range m).filter fn.startsBlock

/-- One instruction more. -/
theorem startsBefore_succ (m : ℕ) : startsBefore fn (m + 1) =
    startsBefore fn m ++ if fn.startsBlock m then [m] else [] := by
  unfold startsBefore
  rw [range_succ, filter_append, filter_singleton]
  cases fn.startsBlock m <;> rfl

/-- Where nothing starts, nothing is added. -/
theorem startsBefore_of_none (hle : m ≤ n) (h : ∀ j, m ≤ j → j < n → fn.startsBlock j = false) :
    startsBefore fn n = startsBefore fn m := by
  induction n with
  | zero =>
    obtain rfl : m = 0 := by omega
    rfl
  | succ n ih =>
    rcases Nat.lt_or_eq_of_le hle with hlt | rfl
    · rw [startsBefore_succ, h n (by omega) (Nat.lt_succ_self n), ih (by omega) fun j hj hj' => h j hj (by omega)]
      simp
    · rfl

/-- The starts before an index come first. -/
theorem startsBefore_prefix (hle : m ≤ n) : ∃ rest, startsBefore fn n = startsBefore fn m ++ rest := by
  induction n with
  | zero => exact ⟨[], by rw [show m = 0 by omega, append_nil]⟩
  | succ n ih =>
    rcases Nat.lt_or_eq_of_le hle with hlt | rfl
    · obtain ⟨rest, hrest⟩ := ih (by omega)
      exact ⟨rest ++ if fn.startsBlock n then [n] else [], by rw [startsBefore_succ, hrest, append_assoc]⟩
    · exact ⟨[], (append_nil _).symm⟩

theorem blockStarts_eq : fn.blockStarts = startsBefore fn fn.instructions.length := rfl

/-- The block that starts at an index, by the number of starts before it. -/
theorem getD_blockStarts (hle : start ≤ fn.instructions.length)
    (hstart : start < fn.instructions.length → fn.startsBlock start = true) :
    fn.blockStarts.getD (startsBefore fn start).length fn.instructions.length = start := by
  rw [blockStarts_eq]
  rcases Nat.lt_or_eq_of_le hle with hlt | rfl
  · obtain ⟨rest, hrest⟩ : ∃ rest, startsBefore fn fn.instructions.length = startsBefore fn (start + 1) ++ rest :=
      startsBefore_prefix hlt
    rw [startsBefore_succ, if_pos (hstart hlt)] at hrest
    rw [hrest, append_assoc, getD_append_right _ _ _ _ le_rfl, Nat.sub_self]
    rfl
  · exact getD_eq_default _ _ le_rfl

/-- The scan for the next start stops at it, or at the end. -/
theorem nextStart_spec (hi : i ≤ fn.instructions.length) (hfuel : fn.instructions.length ≤ i + fuel) :
    i ≤ nextStart (blockStarts fn) fuel i ∧ nextStart (blockStarts fn) fuel i ≤ fn.instructions.length ∧
      (∀ j, i ≤ j → j < nextStart (blockStarts fn) fuel i → fn.startsBlock j = false) ∧
      (nextStart (blockStarts fn) fuel i < fn.instructions.length →
        fn.startsBlock (nextStart (blockStarts fn) fuel i) = true) := by
  obtain ⟨hlength, hstarts⟩ : (blockStarts fn).length = fn.instructions.length ∧ _ := blockStarts_spec
  induction fuel generalizing i with
  | zero =>
    unfold nextStart
    exact ⟨le_rfl, hi, fun j hj hj' => by omega, fun h => by omega⟩
  | succ fuel ih =>
    unfold nextStart
    split
    · next h =>
      rw [hlength] at h
      obtain ⟨h₁, h₂, h₃, h₄⟩ := ih (show i + 1 ≤ fn.instructions.length by omega) (by omega)
      refine ⟨by omega, h₂, fun j hj hj' => ?_, h₄⟩
      rcases Nat.lt_or_eq_of_le hj with hlt | rfl
      · exact h₃ j hlt hj'
      · rw [← hstarts i h.1]
        exact h.2
    · next h =>
      refine ⟨le_rfl, hi, fun j hj hj' => by omega, fun hlt => ?_⟩
      rw [hlength] at h
      have := not_and.mp h hlt
      rw [hstarts i hlt] at this
      simpa using this

/-- A block before its edges are known. -/
def bareBlock (fn : Function) (b : ℕ) : BasicBlock where
  firstInstruction := (fn.blockRange b).1
  instructionCount := (fn.blockRange b).2 - (fn.blockRange b).1
  label := fn.blockLabel b

/-- The labels of the first blocks. -/
def blockLabels (fn : Function) (count : ℕ) : List LabelBlock :=
  (List.range count).filterMap fun b => (fn.blockLabel b).map fun label => ⟨label, b⟩

/-- The block between two starts. -/
theorem blockRange_eq (hlt : start < stop) (hstop : stop ≤ fn.instructions.length)
    (hstart : fn.startsBlock start = true) (hnone : ∀ j, start + 1 ≤ j → j < stop → fn.startsBlock j = false)
    (hnext : stop < fn.instructions.length → fn.startsBlock stop = true) :
    fn.blockRange (startsBefore fn start).length = (start, stop) ∧
      (startsBefore fn stop).length = (startsBefore fn start).length + 1 := by
  have hbefore : (startsBefore fn stop).length = (startsBefore fn start).length + 1 := by
    rw [startsBefore_of_none hlt hnone, startsBefore_succ, if_pos hstart, length_append, length_singleton]
  refine ⟨?_, hbefore⟩
  unfold Function.blockRange
  rw [getD_blockStarts (by omega) fun _ => hstart, ← hbefore, getD_blockStarts hstop hnext]

/-- The label of a block is that of its first instruction. -/
theorem blockLabel_eq (hrange : fn.blockRange b = (start, stop)) (hlt : start < stop)
    (hstop : stop ≤ fn.instructions.length) :
    fn.blockLabel b = if (fn.insn start).op = .label then (fn.insn start).text else none := by
  unfold Function.blockLabel Function.blockInstructions
  rw [hrange, head?_drop, List.getElem?_take, if_pos hlt, List.getElem?_eq_getElem (by omega), bind_some]
  unfold Function.insn
  rw [getD_eq_getElem _ _ (by omega)]

/-- The loop cuts the blocks that the starts delimit. -/
theorem cutBlocks_eq (hle : start ≤ fn.instructions.length) (hfuel : fn.instructions.length ≤ start + fuel)
    (hstart : start < fn.instructions.length → fn.startsBlock start = true) :
    cutBlocks fn (blockStarts fn) fuel start ((range (startsBefore fn start).length).map (bareBlock fn))
        (blockLabels fn (startsBefore fn start).length) =
      ((range fn.blockStarts.length).map (bareBlock fn), blockLabels fn fn.blockStarts.length) := by
  induction fuel generalizing start with
  | zero =>
    obtain rfl : start = fn.instructions.length := by omega
    rfl
  | succ fuel ih =>
    unfold cutBlocks
    rcases Nat.lt_or_eq_of_le hle with hlt | rfl
    · rw [if_neg (by omega), if_neg (by rw [blockStarts_spec.2 start hlt, hstart hlt]; exact Bool.noConfusion)]
      obtain ⟨h₁, h₂, h₃, h₄⟩ := nextStart_spec (show start + 1 ≤ fn.instructions.length from hlt)
        (show fn.instructions.length ≤ start + 1 + fn.instructions.length by omega)
      generalize nextStart (blockStarts fn) fn.instructions.length (start + 1) = stop at h₁ h₂ h₃ h₄
      obtain ⟨hrange, hcount⟩ := blockRange_eq h₁ h₂ (hstart hlt) h₃ h₄
      have hlabel := blockLabel_eq hrange h₁ h₂
      have hbare : bareBlock fn (startsBefore fn start).length = {
          firstInstruction := start
          instructionCount := stop - start
          label := fn.blockLabel (startsBefore fn start).length } := by
        unfold bareBlock
        rw [hrange]
      have hnext := ih h₂ (by omega) h₄
      rw [hcount, range_succ, map_append, map_singleton, hbare] at hnext
      dsimp only
      rw [← hlabel, ← hnext]
      congr 1
      unfold blockLabels
      rw [range_succ, filterMap_append, length_map, length_range]
      cases hnone : fn.blockLabel (startsBefore fn start).length <;> simp [hnone]
    · rw [if_pos le_rfl]
      rfl

/-- The label of a block is found among the labels as it is among the blocks. -/
theorem find_blockLabels (label : String) (count : ℕ) :
    ((blockLabels fn count).find? fun l => l.label = label).map (·.blockIndex) =
      (range count).find? fun b => fn.blockLabel b = some label := by
  unfold blockLabels
  induction range count with
  | nil => rfl
  | cons b rest ih =>
    rw [filterMap_cons, find?_cons]
    cases hlabel : fn.blockLabel b with
    | none => simpa using ih
    | some name =>
      by_cases hname : name = label
      · simp [hname]
      · simpa [hname] using ih

/-! ## The edges -/

/-- The blocks with the edges to and from each. -/
def layout (fn : Function) (successors predecessors : ℕ → List ℕ) : List BasicBlock :=
  (List.range fn.blockStarts.length).map fun b =>
    { bareBlock fn b with successors := successors b, predecessors := predecessors b }

theorem length_layout (S P : ℕ → List ℕ) : (layout fn S P).length = fn.blockStarts.length := by
  simp [layout]

/-- An edge is appended at both of its ends. -/
theorem appendEdge_layout {S P : ℕ → List ℕ} (hi : i < fn.blockStarts.length) (ht : t < fn.blockStarts.length) :
    appendEdge (layout fn S P) i t = some (layout fn (update S i (appendIndexUnique (S i) t))
      (update P t (appendIndexUnique (P t) i))) := by
  rw [appendEdge, length_layout, if_neg (by omega)]
  congr 1
  refine ext_getElem (by simp [layout]) fun b hb hb' => ?_
  simp only [layout, getElem_map, getElem_range]
  by_cases hbi : i = b <;> by_cases hbt : t = b <;> simp [hbi, hbt, eq_comm]

/-- The edges of the blocks before `k`, and those to `done` of block `k`. -/
def linked (fn : Function) (k : ℕ) (done : List ℕ) : List BasicBlock :=
  layout fn (fun b => if b < k then fn.blockSuccessors b else if b = k then done else [])
    fun b => ((List.range k).filter fun p => b ∈ fn.blockSuccessors p) ++ if b ∈ done then [k] else []

/-- So it is while the blocks are linked in order. -/
theorem appendEdge_linked {done : List ℕ} (hk : k < fn.blockStarts.length) (ht : t < fn.blockStarts.length) :
    appendEdge (linked fn k done) k t = some (linked fn k (appendIndexUnique done t)) := by
  unfold linked
  rw [appendEdge_layout hk ht]
  have hfilter : ∀ b, k ∉ (range k).filter fun p => b ∈ fn.blockSuccessors p := by
    intro b hmem
    have := mem_range.mp (mem_of_mem_filter hmem)
    omega
  congr 2
  · funext b
    by_cases hbk : b = k
    · simp [hbk]
    · simp [hbk]
  · funext b
    rw [update_apply]
    by_cases hbt : b = t
    · subst hbt
      unfold appendIndexUnique
      by_cases hdone : b ∈ done
      · simp [hdone]
      · simp [hdone, hfilter]
    · rw [if_neg hbt]
      congr 2
      unfold appendIndexUnique
      split
      · rfl
      · simp [hbt]

theorem blockRange_le (b : ℕ) : (fn.blockRange b).2 ≤ fn.instructions.length := by
  unfold Function.blockRange
  dsimp only
  rw [getD_eq_getElem?_getD]
  cases hb : fn.blockStarts[b + 1]? with
  | none => exact le_rfl
  | some start =>
    have hmem := mem_of_getElem? hb
    exact (mem_range.mp (mem_of_mem_filter hmem)).le

/-- The instructions of a block are those of its range. -/
theorem blockInstructions_eq (b : ℕ) : fn.blockInstructions b =
    (range ((fn.blockRange b).2 - (fn.blockRange b).1)).map
      fun offset => fn.insn ((fn.blockRange b).1 + offset) := by
  have hle : (fn.blockRange b).2 ≤ fn.instructions.length := blockRange_le b
  unfold Function.blockInstructions
  refine ext_getElem ?_ fun k hk hk' => ?_
  · simp only [length_map, length_range, length_drop, length_take]
    omega
  · simp only [length_map, length_range] at hk'
    rw [getElem_map, getElem_range, getElem_drop, getElem_take, Function.insn,
      getD_eq_getElem _ _ (by omega)]

/-- The scan from the end finds the last instruction that is no `NOP`. -/
theorem blockLastNonNop_eq : blockLastNonNop fn (bareBlock fn b) =
    ((fn.blockInstructions b).filter fun i => i.op ≠ .nop).getLast? := by
  unfold blockLastNonNop
  rw [map_reverse, ← head?_filter, filter_reverse, head?_reverse, blockInstructions_eq]
  rfl

/-- A label that is found has a block. -/
theorem findLabelBlock_lt {label : Option String} (h : fn.findLabelBlock label = some t) :
    t < fn.blockStarts.length := by
  obtain ⟨name, -, hfind⟩ := bind_eq_some_iff.mp h
  exact mem_range.mp (List.mem_of_find?_eq_some hfind)

/-- The edges of one block are appended. -/
theorem linkBlock_linked (h : labelIndexBuild hash (blockLabels fn fn.blockStarts.length) = some slots)
    (hk : k < fn.blockStarts.length) :
    linkBlock hash fn slots (blockLabels fn fn.blockStarts.length) (linked fn k []) k =
      some (linked fn k (fn.blockSuccessors k)) := by
  have hlast : blockLastNonNop fn ((linked fn k []).getD k default) =
      ((fn.blockInstructions k).filter fun i => i.op ≠ .nop).getLast? := by
    rw [← blockLastNonNop_eq]
    unfold linked layout
    rw [getD_eq_getElem _ _ (by simpa using hk), getElem_map, getElem_range]
    rfl
  have hnext : ∀ done, appendNext (linked fn k done) k = some (linked fn k
      (if k + 1 < fn.blockStarts.length then appendIndexUnique done (k + 1) else done)) := by
    intro done
    rw [appendNext, show (linked fn k done).length = fn.blockStarts.length from length_layout _ _]
    split
    · next hlt => exact appendEdge_linked hk hlt
    · rfl
  have htarget : ∀ label, appendTarget hash slots (blockLabels fn fn.blockStarts.length) (linked fn k []) k label =
      some (linked fn k (fn.findLabelBlock label).toList) := by
    intro label
    have hfind : label.bind (fun label => ((blockLabels fn fn.blockStarts.length).find? fun l => l.label = label).map
        (·.blockIndex)) = fn.findLabelBlock label := by
      congr 1
      funext name
      exact find_blockLabels name _
    rw [appendTarget, findLabelBlock_eq h, hfind, bind_some]
    cases hblock : fn.findLabelBlock label with
    | none => rfl
    | some t => exact appendEdge_linked hk (findLabelBlock_lt hblock)
  unfold linkBlock Function.blockSuccessors
  rw [hlast]
  cases ((fn.blockInstructions k).filter fun i => i.op ≠ .nop).getLast? with
  | none =>
    rw [hnext]
    rfl
  | some last =>
    dsimp only
    by_cases hjump : last.op = .jump
    · rw [if_pos hjump, if_pos hjump, htarget]
    rw [if_neg hjump, if_neg hjump]
    by_cases hbranch : last.isBranch = true
    · rw [if_pos hbranch, if_pos hbranch, htarget, bind_some, hnext]
      congr 2
      -- Appending without repetition and removing repetitions agree on two edges.
      cases fn.findLabelBlock last.text with
      | none => split <;> rfl
      | some t =>
        split
        · unfold appendIndexUnique
          by_cases heq : k + 1 = t
          · simp [heq]
          · simp [heq, Ne.symm heq]
        · rfl
    rw [if_neg hbranch, if_neg hbranch]
    by_cases hreturn : last.op = .return
    · rw [if_neg (not_not.mpr hreturn), if_pos hreturn]
    · rw [if_pos hreturn, if_neg hreturn, hnext]
      rfl

/-- A block with all of its successors is linked. -/
theorem linked_succ : linked fn k (fn.blockSuccessors k) = linked fn (k + 1) [] := by
  unfold linked
  congr 1
  · funext b
    rcases Nat.lt_trichotomy b k with hlt | rfl | hgt
    · simp [hlt, show b < k + 1 by omega]
    · simp
    · simp [show ¬ b < k by omega, show b ≠ k by omega, show ¬ b < k + 1 by omega]
  · funext b
    rw [range_succ, filter_append, filter_singleton]
    by_cases hb : b ∈ fn.blockSuccessors k <;> simp [hb]

/-- Rebuilding gives the graph. -/
theorem rebuild_eq (hash : String → ℕ) (fn : Function) : rebuild hash fn = some fn.blocks := by
  have hcut : cutBlocks fn (blockStarts fn) fn.instructions.length 0 [] [] =
      ((range fn.blockStarts.length).map (bareBlock fn), blockLabels fn fn.blockStarts.length) :=
    cutBlocks_eq (Nat.zero_le _) (by omega) fun _ => rfl
  obtain ⟨slots, hslots⟩ : ∃ slots, labelIndexBuild hash (blockLabels fn fn.blockStarts.length) = some slots := by
    by_cases hne : (blockLabels fn fn.blockStarts.length).length = 0
    · exact ⟨[], by rw [labelIndexBuild, if_pos hne]⟩
    · obtain ⟨slots, hslots, -⟩ := labelIndexBuild_spec hash hne
      exact ⟨slots, hslots⟩
  have hloop : ∀ k ≤ fn.blockStarts.length,
      (range k).foldlM (linkBlock hash fn slots (blockLabels fn fn.blockStarts.length)) (linked fn 0 []) =
        some (linked fn k []) := by
    intro k hk
    induction k with
    | zero => rfl
    | succ k ih =>
      rw [range_succ, foldlM_append, ih (by omega)]
      simp [linkBlock_linked hslots (show k < fn.blockStarts.length by omega), linked_succ]
  have hbare : (range fn.blockStarts.length).map (bareBlock fn) = linked fn 0 [] := by
    unfold linked layout
    simp [bareBlock]
  have hfull : linked fn fn.blockStarts.length [] = fn.blocks := by
    refine map_congr_left fun b hb => ?_
    rw [mem_range] at hb
    simp [bareBlock, hb, Function.blockPredecessors]
  unfold rebuild
  rw [hcut]
  dsimp only
  rw [hslots, bind_some, length_map, length_range, hbare, hloop _ le_rfl, hfull]

end Cfg

end Mettle.Ir

import Mettle.Mir.LiveBlocks

/-!
# What live intervals cover

The widened intervals are the greatest spans of the registers: what mentions and crossed loops join. They cover the
live indices exactly if they cover the ends of every backward transfer that a register is live over, and the places
where control begins. A loop counts for a register that looks live at its header, which every live register does that
the block analysis does not overlook.
-/

open List Option Function

namespace Mettle.Mir

open Mettle.Lib

namespace MirFunction

variable (fn : MirFunction)

/-- An instruction mentions a register. -/
def Mentions (i : ℕ) (v : ℤ) : Prop := (fn.insn i).op ≠ .nop ∧ v ∈ fn.operandVregs i ∧ fn.valid v = true

/-- What the mentions of a register span, with the loops of the backward branches that such a span reaches out of and
at whose header the register looks live. -/
inductive Spans (v : ℤ) : ℕ → ℕ → Prop
  | mentions {s e : ℕ} : fn.Mentions s v → fn.Mentions e v → s ≤ e → Spans v s e
  | entry {s e : ℕ} : Spans v s e → v ∈ fn.liveEntries → Spans v 0 e
  | loop {s e l b : ℕ} : Spans v s e → (l, b) ∈ fn.backEdges → fn.LooksLive l v → l ≤ e → s ≤ b →
    (s < l ∨ b < e ∨ (v ∈ fn.liveEntries ∧ l = 0)) → Spans v (min s l) (max e b)

variable {fn} {cfg : Option (ℕ → Finset ℤ)} {v : ℤ} {s e : ℕ}

theorem Mentions.lt {i : ℕ} (h : fn.Mentions i v) : i < fn.insnCount := by
  by_contra hi
  exact h.1 (by rw [insn_of_le (Nat.le_of_not_lt hi)])

/-- A back edge goes up to a leader. -/
theorem mem_backEdges {l b : ℕ} (h : (l, b) ∈ fn.backEdges) : l < b ∧ b < fn.insnCount ∧ l ∈ fn.liveLeaders := by
  obtain ⟨b', hb', heq⟩ := mem_filterMap.mp h
  unfold backEdge at heq
  simp only at heq
  split at heq
  · obtain ⟨l', hl', heq⟩ := map_eq_some_iff.mp heq
    obtain ⟨rfl, rfl⟩ := heq
    obtain ⟨hfind, hlt⟩ := filter_eq_some_iff.mp hl'
    exact ⟨of_decide_eq_true hlt, mem_range.mp hb', liveLeader_of_labelFind hfind⟩
  · cases heq

theorem Spans.le (h : fn.Spans v s e) : s ≤ e := by
  induction h with
  | mentions _ _ hle => exact hle
  | entry => exact Nat.zero_le _
  | loop _ _ _ _ _ _ ih => omega

theorem Spans.lt (h : fn.Spans v s e) : e < fn.insnCount := by
  induction h with
  | mentions _ he _ => exact he.lt
  | entry _ _ ih => exact ih
  | loop _ hmem _ _ _ _ ih =>
    have := mem_backEdges hmem
    omega

theorem Spans.valid (h : fn.Spans v s e) : fn.valid v = true := by
  induction h with
  | mentions hs _ _ => exact hs.2.2
  | entry _ _ ih => exact ih
  | loop _ _ _ _ _ _ ih => exact ih

/-! ## Mentions -/

/-- What noting the mentions of some instructions establishes for a register. -/
structure Noted (fn : MirFunction) (P : ℕ → Prop) (v : ℤ) (o : Option LiveInterval) : Prop where
  none : o = none → ∀ i, P i → ¬ fn.Mentions i v
  start : ∀ iv, o = some iv → fn.Mentions iv.start v
  stop : ∀ iv, o = some iv → fn.Mentions iv.stop v
  within : ∀ iv, o = some iv → ∀ i, P i → fn.Mentions i v → iv.start ≤ i ∧ i ≤ iv.stop
  entry : ∀ iv, o = some iv → iv.entryLive = false

/-- Noting an operand extends the intervals of its registers. -/
theorem noteOperand_eq (i : ℕ) (st : Intervals) (o : Operand) (v : ℤ) :
    fn.noteOperand i st o v = if v ∈ o.vregs ∧ fn.valid v = true then some (.note i (st v)) else st v := by
  have hnote (iv : Option LiveInterval) : LiveInterval.note i (some (.note i iv)) = .note i iv := by
    cases iv <;> simp [LiveInterval.note]
  have hfold (vs : List ℤ) (st : Intervals) :
      vs.foldl (fun st v => update st v (some (.note i (st v)))) st v =
        if v ∈ vs then some (.note i (st v)) else st v := by
    induction vs generalizing st with
    | nil => simp
    | cons u vs ih =>
      rw [foldl_cons, ih]
      by_cases huv : v = u
      · subst huv
        simp only [update_self, mem_cons, true_or, if_true, hnote, ite_self]
      · simp only [update_of_ne huv, mem_cons, huv, false_or]
  rw [noteOperand, hfold]
  simp only [mem_filter]

/-- Noting an instruction extends those of all it mentions. -/
theorem noteInst_eq (st : Intervals) (i : ℕ) (v : ℤ) [Decidable (fn.Mentions i v)] :
    fn.noteInst st i v = if fn.Mentions i v then some (.note i (st v)) else st v := by
  have hnote (iv : Option LiveInterval) : LiveInterval.note i (some (.note i iv)) = .note i iv := by
    cases iv <;> simp [LiveInterval.note]
  unfold noteInst Mentions operandVregs
  by_cases hop : (fn.insn i).op = .nop
  · simp [hop]
  simp only [hop, if_false, foldl_cons, foldl_nil, noteOperand_eq, mem_append, ne_eq, not_false_eq_true,
    true_and]
  by_cases hvalid : fn.valid v = true
  · simp only [hvalid, and_true]
    by_cases hdst : v ∈ (fn.insn i).dst.vregs <;> by_cases ha : v ∈ (fn.insn i).a.vregs <;>
      by_cases hb : v ∈ (fn.insn i).b.vregs <;> simp [hdst, ha, hb, hnote]
  · simp [hvalid]

/-- So the interval covers the mentions up to there. -/
theorem Noted.noteInst {st : Intervals} {n : ℕ} (h : Noted fn (· < n) v (st v)) :
    Noted fn (· < n + 1) v (fn.noteInst st n v) := by
  classical
  rw [noteInst_eq]
  split
  · rename_i hmention
    -- a first mention opens the interval, a later one moves its end
    cases hst : st v with
    | none =>
      rw [hst] at h
      refine ⟨nofun, ?_, ?_, ?_, ?_⟩
      · rintro iv ⟨⟩
        exact hmention
      · rintro iv ⟨⟩
        exact hmention
      · rintro iv ⟨⟩ i (hi : i < n + 1) hi'
        have heq : i = n := by
          by_contra hne
          exact h.none rfl i (show i < n by omega) hi'
        simp [LiveInterval.note, heq]
      · rintro iv ⟨⟩
        rfl
    | some iv =>
      rw [hst] at h
      have hstart := h.start iv rfl
      have hstop := h.stop iv rfl
      refine ⟨nofun, ?_, ?_, ?_, ?_⟩
      · rintro _ ⟨⟩
        show fn.Mentions (min iv.start n) v
        rcases min_choice iv.start n with heq | heq <;> rw [heq]
        · exact hstart
        · exact hmention
      · rintro _ ⟨⟩
        show fn.Mentions (max iv.stop n) v
        rcases max_choice iv.stop n with heq | heq <;> rw [heq]
        · exact hstop
        · exact hmention
      · rintro _ ⟨⟩ i (hi : i < n + 1) hi'
        show min iv.start n ≤ i ∧ i ≤ max iv.stop n
        by_cases heq : i = n
        · omega
        · have := h.within iv rfl i (show i < n by omega) hi'
          omega
      · rintro _ ⟨⟩
        exact h.entry iv rfl
  · rename_i hmention
    -- no mention here, so what held of the instructions before holds of one more
    refine ⟨fun hnone i (hi : i < n + 1) hi' => ?_, h.start, h.stop, fun iv hiv i (hi : i < n + 1) hi' => ?_, h.entry⟩
    · by_cases heq : i = n
      · exact hmention (heq ▸ hi')
      · exact h.none hnone i (show i < n by omega) hi'
    · by_cases heq : i = n
      · exact absurd (heq ▸ hi') hmention
      · exact h.within iv hiv i (show i < n by omega) hi'

/-- The intervals of what is live at the entry are marked. -/
theorem enterLive_fold (vs : List ℤ) (st : Intervals) (v : ℤ) :
    vs.foldl enterLive st v = if v ∈ vs then (st v).map LiveInterval.enter else st v := by
  induction vs generalizing st with
  | nil => simp
  | cons u vs ih =>
    rw [foldl_cons, ih, enterLive]
    by_cases huv : v = u
    · subst huv
      cases st v <;> simp [LiveInterval.enter]
    · simp only [update_of_ne huv, mem_cons, huv, false_or]

/-! ## The invariant of the widening -/

/-- An interval is a span of its register that holds all mentions. -/
structure Spanning (fn : MirFunction) (st : Intervals) : Prop where
  none : ∀ v, st v = none → ∀ i, ¬ fn.Mentions i v
  spans : ∀ v iv, st v = some iv → fn.Spans v iv.start iv.stop
  within : ∀ v iv, st v = some iv → ∀ i, fn.Mentions i v → iv.start ≤ i ∧ i ≤ iv.stop
  entry : ∀ v iv, st v = some iv → (iv.entryLive = true ↔ v ∈ fn.liveEntries)
  start : ∀ v iv, st v = some iv → v ∈ fn.liveEntries → iv.start = 0

/-- From the mentions alone the intervals are spans. -/
theorem spanning_mentionIntervals (fn : MirFunction) : Spanning fn fn.mentionIntervals := by
  -- the sweep over the instructions, by the number of those seen
  have hnoted (v : ℤ) : Noted fn (· < fn.insnCount) v ((range fn.insnCount).foldl fn.noteInst (fun _ => none) v) := by
    induction fn.insnCount with
    | zero => exact ⟨fun _ i hi => absurd hi (Nat.not_lt_zero i), nofun, nofun, nofun, nofun⟩
    | succ n ih =>
      rw [range_succ, foldl_append, foldl_cons, foldl_nil]
      exact ih.noteInst
  have hspan (v : ℤ) (iv : LiveInterval) (h : (range fn.insnCount).foldl fn.noteInst (fun _ => none) v = some iv) :
      fn.Spans v iv.start iv.stop := by
    have hstart := (hnoted v).start iv h
    exact .mentions hstart ((hnoted v).stop iv h) ((hnoted v).within iv h _ hstart.lt hstart).2
  refine ⟨fun v hv i hi => ?_, fun v iv hv => ?_, fun v iv hv i hi => ?_, fun v iv hv => ?_, fun v iv hv hin => ?_⟩ <;>
    rw [mentionIntervals, enterLive_fold] at hv
  · have hnone : (range fn.insnCount).foldl fn.noteInst (fun _ => none) v = none := by
      split at hv
      · exact map_eq_none_iff.mp hv
      · exact hv
    exact (hnoted v).none hnone i hi.lt hi
  · split at hv
    · rename_i hin
      obtain ⟨iv', hiv', rfl⟩ := map_eq_some_iff.mp hv
      exact (hspan v iv' hiv').entry hin
    · exact hspan v iv hv
  · split at hv
    · obtain ⟨iv', hiv', rfl⟩ := map_eq_some_iff.mp hv
      exact ⟨Nat.zero_le _, ((hnoted v).within iv' hiv' i hi.lt hi).2⟩
    · exact (hnoted v).within iv hv i hi.lt hi
  · split at hv
    · rename_i hin
      obtain ⟨iv', hiv', rfl⟩ := map_eq_some_iff.mp hv
      exact ⟨fun _ => hin, fun _ => rfl⟩
    · rename_i hout
      rw [(hnoted v).entry iv hv]
      exact ⟨fun h => absurd h (by decide), fun h => absurd h hout⟩
  · rw [if_pos hin] at hv
    obtain ⟨iv', _, rfl⟩ := map_eq_some_iff.mp hv
    rfl

/-- The graph tells what looks live at the headers, for the registers that are mentioned. -/
def Tells (fn : MirFunction) (cfg : Option (ℕ → Finset ℤ)) : Prop :=
  ∀ edge ∈ fn.backEdges, ∀ v i, fn.Mentions i v → (fn.headerLive cfg edge.1 v = true ↔ fn.LooksLive edge.1 v)

/-- The sets at the headers tell which registers look live there. -/
theorem headerCfg_spec (fn : MirFunction) : ∃ cfg, fn.headerCfg = some cfg ∧ Tells fn cfg := by
  unfold headerCfg
  split
  · rename_i hnone
    exact ⟨none, rfl, fun edge hedge => by rw [hnone] at hedge; cases hedge⟩
  · obtain ⟨cfg, hcfg, hlooks⟩ := liveCfgBuild_spec fn fn.mentionIntervals
    refine ⟨cfg, hcfg, fun edge hedge v i hmention => ?_⟩
    -- the notes on entry are in the intervals by then
    have hnotes := spanning_mentionIntervals fn
    have hentry : fn.KnowsEntry fn.mentionIntervals v := by
      unfold KnowsEntry
      cases hv : fn.mentionIntervals v with
      | none => exact absurd hmention (hnotes.none v hv i)
      | some iv => exact hnotes.entry v iv hv
    exact hlooks edge.1 (mem_backEdges hedge).2.2 v hmention.2.2 hentry

theorem Spans.mentioned (h : fn.Spans v s e) : ∃ i, fn.Mentions i v := by
  induction h with
  | @mentions s e hs _ _ => exact ⟨s, hs⟩
  | entry _ _ ih => exact ih
  | loop _ _ _ _ _ _ ih => exact ih

/-- The interval after an edge: the same, or widened by the loop. -/
theorem extendInterval_cases (cfg : Option (ℕ → Finset ℤ)) (l b : ℕ) (v : ℤ) (iv : LiveInterval) :
    fn.extendInterval cfg l b v iv = iv ∨
      (fn.headerLive cfg l v = true ∧ crosses iv l b = true) ∧ fn.extendInterval cfg l b v iv = widen iv l b := by
  unfold extendInterval
  split
  · rename_i h
    exact .inr ⟨h, rfl⟩
  · exact .inl rfl

variable {edge : ℕ × ℕ} {iv : LiveInterval}

/-- Extending across a back edge gives spans again. -/
theorem Spanning.extend {st : Intervals} (hcfg : Tells fn cfg) (h : Spanning fn st) (hedge : edge ∈ fn.backEdges) :
    Spanning fn (fn.extendAcrossEdge cfg st edge).1 := by
  have hcases (v : ℤ) (iv : LiveInterval) (hv : (fn.extendAcrossEdge cfg st edge).1 v = some iv) :
      ∃ iv₀, st v = some iv₀ ∧ iv = fn.extendInterval cfg edge.1 edge.2 v iv₀ := by
    obtain ⟨iv₀, hiv₀, heq⟩ := map_eq_some_iff.mp hv
    exact ⟨iv₀, hiv₀, heq.symm⟩
  refine ⟨fun v hv => h.none v (map_eq_none_iff.mp hv), fun v iv hv => ?_, fun v iv hv i hi => ?_,
    fun v iv hv => ?_, fun v iv hv hin => ?_⟩ <;>
    obtain ⟨iv₀, hiv₀, rfl⟩ := hcases v iv hv <;>
    rcases extendInterval_cases cfg edge.1 edge.2 v iv₀ with heq | ⟨⟨hheader, hcross⟩, heq⟩ <;> rw [heq]
  · exact h.spans v iv₀ hiv₀
  · simp only [crosses, decide_eq_true_eq] at hcross
    rw [h.entry v iv₀ hiv₀] at hcross
    have hspan := h.spans v iv₀ hiv₀
    obtain ⟨i, hi⟩ := hspan.mentioned
    exact .loop hspan hedge ((hcfg edge hedge v i hi).mp hheader) hcross.1 hcross.2.1 hcross.2.2
  · exact h.within v iv₀ hiv₀ i hi
  · have := h.within v iv₀ hiv₀ i hi
    show min iv₀.start edge.1 ≤ i ∧ i ≤ max iv₀.stop edge.2
    omega
  · exact h.entry v iv₀ hiv₀
  · exact h.entry v iv₀ hiv₀
  · exact h.start v iv₀ hiv₀ hin
  · show min iv₀.start edge.1 = 0
    rw [h.start v iv₀ hiv₀ hin, Nat.zero_min]

/-- How far the intervals reach. -/
def reach (fn : MirFunction) (st : Intervals) : ℕ :=
  ∑ v ∈ Finset.range fn.vregCount, ((st v).map fun iv => (fn.insnCount - iv.start) + iv.stop).getD 0

/-- The intervals together cannot be longer than the function for each register. -/
theorem reach_le {st : Intervals} (h : Spanning fn st) : fn.reach st ≤ 2 * fn.insnCount * fn.vregCount := by
  have hone (v : ℕ) : ((st v).map fun iv => (fn.insnCount - iv.start) + iv.stop).getD 0 ≤ 2 * fn.insnCount := by
    cases hst : st v with
    | none => exact Nat.zero_le _
    | some iv =>
      have hlt := (h.spans v iv hst).lt
      show fn.insnCount - iv.start + iv.stop ≤ _
      omega
  calc fn.reach st ≤ ∑ _v ∈ Finset.range fn.vregCount, 2 * fn.insnCount := Finset.sum_le_sum fun v _ => hone v
    _ = 2 * fn.insnCount * fn.vregCount := by
      rw [Finset.sum_const, Finset.card_range, smul_eq_mul, Nat.mul_comm]

/-- Extending makes no interval shorter. -/
theorem reach_extend_le (st : Intervals) (edge : ℕ × ℕ) (v : ℤ) :
    ((st v).map fun iv => (fn.insnCount - iv.start) + iv.stop).getD 0 ≤
      (((fn.extendAcrossEdge cfg st edge).1 v).map fun iv => (fn.insnCount - iv.start) + iv.stop).getD 0 := by
  show _ ≤ (((st v).map _).map _).getD 0
  cases st v with
  | none => exact Nat.zero_le _
  | some iv =>
    show fn.insnCount - iv.start + iv.stop ≤ fn.insnCount - (fn.extendInterval cfg edge.1 edge.2 v iv).start +
      (fn.extendInterval cfg edge.1 edge.2 v iv).stop
    rcases extendInterval_cases cfg edge.1 edge.2 v iv with heq | ⟨_, heq⟩ <;> rw [heq]
    show _ ≤ fn.insnCount - min iv.start edge.1 + max iv.stop edge.2
    omega

/-- When it changes something, they get longer together. -/
theorem reach_extend_lt {st : Intervals} (h : Spanning fn st)
    (hmoved : (fn.extendAcrossEdge cfg st edge).2 = true) :
    fn.reach st < fn.reach (fn.extendAcrossEdge cfg st edge).1 := by
  obtain ⟨v, hv, hany⟩ := List.any_eq_true.mp hmoved
  obtain ⟨iv, hst, hmove⟩ := (Option.any_eq_true _ _).mp hany
  refine Finset.sum_lt_sum (fun v _ => reach_extend_le st edge v)
    ⟨v, Finset.mem_range.mpr (mem_range.mp hv), ?_⟩
  show _ < (((st v).map _).map _).getD 0
  rw [hst]
  show fn.insnCount - iv.start + iv.stop < fn.insnCount - (fn.extendInterval cfg edge.1 edge.2 v iv).start +
    (fn.extendInterval cfg edge.1 edge.2 v iv).stop
  simp only [movesInterval, decide_eq_true_eq] at hmove
  have hwiden : fn.extendInterval cfg edge.1 edge.2 v iv = widen iv edge.1 edge.2 := if_pos ⟨hmove.1, hmove.2.1⟩
  rw [hwiden]
  show _ < fn.insnCount - min iv.start edge.1 + max iv.stop edge.2
  have hspan := h.spans v iv hst
  have hle := hspan.le
  have hlt := hspan.lt
  omega

/-- An interval holds a loop it reaches out of. -/
def Closed (fn : MirFunction) (cfg : Option (ℕ → Finset ℤ)) (edge : ℕ × ℕ) (st : Intervals) : Prop :=
  ∀ v iv, st v = some iv → fn.headerLive cfg edge.1 v = true → crosses iv edge.1 edge.2 = true →
    iv.start ≤ edge.1 ∧ edge.2 ≤ iv.stop

/-- An edge that moves no end leaves the intervals as they are, up to the note that they are carried. -/
theorem extend_unmoved {st : Intervals} (h : Spanning fn st)
    (hstable : (fn.extendAcrossEdge cfg st edge).2 = false) {v : ℤ}
    (hv : (fn.extendAcrossEdge cfg st edge).1 v = some iv) :
    ∃ iv₀, st v = some iv₀ ∧ iv.start = iv₀.start ∧ iv.stop = iv₀.stop ∧ iv.entryLive = iv₀.entryLive ∧
      (fn.headerLive cfg edge.1 v = true → crosses iv₀ edge.1 edge.2 = true →
        iv₀.start ≤ edge.1 ∧ edge.2 ≤ iv₀.stop) := by
  obtain ⟨iv₀, hiv₀, rfl⟩ := map_eq_some_iff.mp hv
  have hunmoved : fn.movesInterval cfg edge.1 edge.2 v iv₀ = false := by
    have hvalid := (h.spans v iv₀ hiv₀).valid
    simp only [MirFunction.valid, decide_eq_true_eq] at hvalid
    obtain ⟨n, rfl⟩ := Int.eq_ofNat_of_zero_le hvalid.1
    have hnone := List.any_eq_false.mp hstable n (mem_range.mpr (by omega))
    rw [hiv₀] at hnone
    simpa using hnone
  have hin : fn.headerLive cfg edge.1 v = true → crosses iv₀ edge.1 edge.2 = true →
      iv₀.start ≤ edge.1 ∧ edge.2 ≤ iv₀.stop := by
    intro hheader hcross
    simp only [movesInterval, hheader, hcross, true_and, decide_eq_false_iff_not, not_or, Nat.not_lt] at hunmoved
    exact hunmoved
  refine ⟨iv₀, hiv₀, ?_⟩
  rcases extendInterval_cases cfg edge.1 edge.2 v iv₀ with heq | ⟨⟨hheader, hcross⟩, heq⟩ <;> rw [heq]
  · exact ⟨rfl, rfl, rfl, hin⟩
  · obtain ⟨hstart, hstop⟩ := hin hheader hcross
    exact ⟨Nat.min_eq_left hstart, Nat.max_eq_left hstop, rfl, hin⟩

/-- Whether an interval crosses a loop depends on its ends and its mark. -/
theorem crosses_congr {iv' : LiveInterval} (hstart : iv'.start = iv.start) (hstop : iv'.stop = iv.stop)
    (hentry : iv'.entryLive = iv.entryLive) (l b : ℕ) : crosses iv' l b = crosses iv l b := by
  rw [crosses, crosses, hstart, hstop, hentry]

end MirFunction

open MirFunction

variable {fn : MirFunction}

/-- The widening stops with spans that hold the mentions and every loop they reach out of. -/
theorem computeLiveness_spec (fn : MirFunction) : ∃ cfg st, Tells fn cfg ∧ computeLiveness fn = some st ∧
    Spanning fn st ∧ ∀ edge ∈ fn.backEdges, Closed fn cfg edge st := by
  obtain ⟨cfg, hcfg, htells⟩ := headerCfg_spec fn
  have hinv : ∀ st, ∀ edge ∈ fn.backEdges, Spanning fn st → Spanning fn (fn.extendAcrossEdge cfg st edge).1 :=
    fun st edge hedge h => h.extend htells hedge
  have hmono : ∀ st, ∀ edge ∈ fn.backEdges, Spanning fn st →
      fn.reach st ≤ fn.reach (fn.extendAcrossEdge cfg st edge).1 :=
    fun st edge _ _ => Finset.sum_le_sum fun v _ => reach_extend_le st edge v
  obtain ⟨st, hst⟩ : ∃ st, untilStable (fn.extendAcrossEdge cfg) fn.backEdges
      (2 * fn.insnCount * fn.vregCount + 1) fn.mentionIntervals = some st :=
    untilStable_stops hinv hmono (fun st edge _ h hmoved => reach_extend_lt h hmoved) (fun st h => reach_le h)
      (spanning_mentionIntervals fn) (by omega)
  refine ⟨cfg, st, htells, by rw [computeLiveness, hcfg, bind_some, hst], ?_⟩
  refine untilStable_post hinv ?_ ?_ (spanning_mentionIntervals fn) hst
  · intro st edge _ h hstable v iv hv hheader hcross
    obtain ⟨iv₀, _, hstart, hstop, hentry, hin⟩ := extend_unmoved h hstable hv
    rw [crosses_congr hstart hstop hentry] at hcross
    rw [hstart, hstop]
    exact hin hheader hcross
  · intro st edge _ edge' _ h hclosed hstable v iv hv hheader hcross
    obtain ⟨iv₀, hiv₀, hstart, hstop, hentry, _⟩ := extend_unmoved h hstable hv
    rw [crosses_congr hstart hstop hentry] at hcross
    rw [hstart, hstop]
    exact hclosed v iv₀ hiv₀ hheader hcross

/-- The interval of a register holds all its spans. -/
theorem MirFunction.Spans.within {cfg : Option (ℕ → Finset ℤ)} {st : Intervals} {v : ℤ} {s e : ℕ}
    (h : fn.Spans v s e) (hcfg : Tells fn cfg) (hst : Spanning fn st)
    (hclosed : ∀ edge ∈ fn.backEdges, Closed fn cfg edge st) :
    ∃ iv, st v = some iv ∧ iv.start ≤ s ∧ e ≤ iv.stop := by
  induction h with
  | @mentions s e hs he _ =>
    cases hv : st v with
    | none => exact absurd hs (hst.none v hv s)
    | some iv => exact ⟨iv, rfl, (hst.within v iv hv s hs).1, (hst.within v iv hv e he).2⟩
  | entry _ hin ih =>
    obtain ⟨iv, hv, _, hstop⟩ := ih
    exact ⟨iv, hv, (hst.start v iv hv hin).le, hstop⟩
  | @loop s e l b hspan hedge hlooks hle hle' hcross ih =>
    obtain ⟨iv, hv, hstart, hstop⟩ := ih
    obtain ⟨i, hi⟩ := hspan.mentioned
    have hheader := (hcfg (l, b) hedge v i hi).mpr hlooks
    have hcrosses : crosses iv l b = true := by
      simp only [crosses, decide_eq_true_eq]
      refine ⟨by omega, by omega, ?_⟩
      rw [hst.entry v iv hv]
      rcases hcross with h | h | h
      · exact .inl (by omega)
      · exact .inr (.inl (by omega))
      · exact .inr (.inr h)
    obtain ⟨hl, hb⟩ := hclosed (l, b) hedge v iv hv hheader hcrosses
    refine ⟨iv, hv, le_min hstart hl, max_le hstop hb⟩

theorem mentions_of_mem_uses {i : ℕ} {v : ℤ} (h : v ∈ fn.uses i) : fn.Mentions i v := by
  rw [MirFunction.uses, List.mem_toFinset, mem_filter] at h
  obtain ⟨h, hvalid⟩ := h
  unfold Inst.uses at h
  split at h
  · cases h
  rename_i hop
  refine ⟨hop, ?_, hvalid⟩
  simp only [mem_append] at h
  simp only [operandVregs, mem_append]
  rcases h with (h | h) | h
  · split at h
    · exact .inl (.inl h)
    · cases h
  · exact .inl (.inr h)
  · exact .inr h

theorem mentions_of_mem_defs {i : ℕ} {v : ℤ} (h : v ∈ fn.defs i) : fn.Mentions i v := by
  unfold MirFunction.defs at h
  split at h
  · rename_i hvalid
    rw [Finset.mem_singleton] at h
    subst h
    unfold Inst.defs at hvalid ⊢
    split at hvalid
    · rename_i hdst
      rw [if_pos hdst]
      refine ⟨hdst.1, ?_, hvalid⟩
      simp [operandVregs, Operand.vregs, hdst.2]
    · simp [MirFunction.valid] at hvalid
  · cases h

/-! ## Covering -/

/-- Every index at which a register is live lies within its interval. -/
def CoversLive (fn : MirFunction) (st : Intervals) : Prop :=
  ∀ i v, LiveAt fn i v → ∃ iv, st v = some iv ∧ iv.start ≤ i ∧ i ≤ iv.stop

/-- Where control begins, and at the ends of a backward transfer, the live registers span that place. -/
structure SpansLive (fn : MirFunction) : Prop where
  begins : ∀ i v, LiveAt fn i v → (i = 0 ∨ ∀ p, i ∉ fn.next p) → ∃ s e, fn.Spans v s e ∧ s ≤ i ∧ i ≤ e
  back : ∀ b l v, l ∈ fn.next b → l ≤ b → LiveAt fn l v → ∃ s e, fn.Spans v s e ∧ s ≤ l ∧ b ≤ e

/-- A register that is live after an instruction is live before it, or mentioned by it. -/
theorem LiveAt.before {i j : ℕ} {v : ℤ} (h : LiveAt fn j v) (hj : j ∈ fn.next i) : fn.Mentions i v ∨ LiveAt fn i v := by
  by_cases hdef : v ∈ fn.defs i
  · exact .inl (mentions_of_mem_defs hdef)
  · exact .inr (.pass hj hdef h)

section

variable {cfg : Option (ℕ → Finset ℤ)} {st : Intervals} (hcfg : Tells fn cfg) (hst : Spanning fn st)
  (hclosed : ∀ edge ∈ fn.backEdges, Closed fn cfg edge st)

include hcfg hst hclosed

/-- No register is live past its interval. -/
theorem stop_of_liveAt (hback : SpansLive fn) {i : ℕ} {v : ℤ} (h : LiveAt fn i v) :
    ∃ iv, st v = some iv ∧ i ≤ iv.stop := by
  induction h with
  | @read i v huse =>
    have hmention := mentions_of_mem_uses huse
    cases hv : st v with
    | none => exact absurd hmention (hst.none v hv i)
    | some iv => exact ⟨iv, rfl, (hst.within v iv hv i hmention).2⟩
  | @pass i j v hj _ hlive ih =>
    obtain ⟨iv, hv, hle⟩ := ih
    rcases Nat.lt_or_ge i j with hlt | hge
    · exact ⟨iv, hv, by omega⟩
    · obtain ⟨s, e, hspan, _, he⟩ := hback.back i j v hj hge hlive
      obtain ⟨iv', hv', _, hstop⟩ := hspan.within hcfg hst hclosed
      exact ⟨iv', hv', he.trans hstop⟩

/-- No register is live before its interval. -/
theorem start_of_liveAt (hback : SpansLive fn) {i : ℕ} {v : ℤ} (h : LiveAt fn i v) :
    ∃ iv, st v = some iv ∧ iv.start ≤ i := by
  induction i using Nat.strong_induction_on with
  | _ i ih =>
    by_cases hbegin : i = 0 ∨ ∀ p, i ∉ fn.next p
    · obtain ⟨s, e, hspan, hs, _⟩ := hback.begins i v h hbegin
      obtain ⟨iv, hv, hstart, _⟩ := hspan.within hcfg hst hclosed
      exact ⟨iv, hv, hstart.trans hs⟩
    -- control comes from somewhere: from before, where the register is mentioned or live, or back
    simp only [not_or, not_forall, Decidable.not_not] at hbegin
    obtain ⟨p, hp⟩ := hbegin.2
    rcases Nat.lt_or_ge p i with hlt | hge
    · rcases h.before hp with hmention | hlive
      · cases hv : st v with
        | none => exact absurd hmention (hst.none v hv p)
        | some iv => exact ⟨iv, rfl, (hst.within v iv hv p hmention).1.trans hlt.le⟩
      · obtain ⟨iv, hv, hle⟩ := ih p hlt hlive
        exact ⟨iv, hv, by omega⟩
    · obtain ⟨s, e, hspan, hs, _⟩ := hback.back p i v hp hge h
      obtain ⟨iv, hv, hstart, _⟩ := hspan.within hcfg hst hclosed
      exact ⟨iv, hv, hstart.trans hs⟩

/-- The intervals cover the live indices exactly if the spans cover where control begins and goes back. -/
theorem coversLive_iff_spansLive : CoversLive fn st ↔ SpansLive fn := by
  constructor
  · intro hcovers
    refine ⟨fun i v hlive _ => ?_, fun b l v hl _ hlive => ?_⟩
    · obtain ⟨iv, hv, hstart, hstop⟩ := hcovers i v hlive
      exact ⟨iv.start, iv.stop, hst.spans v iv hv, hstart, hstop⟩
    · obtain ⟨iv, hv, hstart, _⟩ := hcovers l v hlive
      refine ⟨iv.start, iv.stop, hst.spans v iv hv, hstart, ?_⟩
      rcases hlive.before hl with hmention | hlive
      · exact (hst.within v iv hv b hmention).2
      · obtain ⟨iv', hv', _, hstop⟩ := hcovers b v hlive
        obtain rfl : iv' = iv := some.inj (hv'.symm.trans hv)
        exact hstop
  · intro hspans i v hlive
    obtain ⟨iv, hv, hstart⟩ := start_of_liveAt hcfg hst hclosed hspans hlive
    obtain ⟨iv', hv', hstop⟩ := stop_of_liveAt hcfg hst hclosed hspans hlive
    obtain rfl : iv' = iv := some.inj (hv'.symm.trans hv)
    exact ⟨iv', hv, hstart, hstop⟩

end

/-- `mir_compute_liveness` stops; its intervals cover the live indices exactly if the spans of the live registers reach
where control begins and goes back. A register that is live at a header looks live there, unless the block analysis
overlooks it. -/
theorem computeLiveness_covers (fn : MirFunction) :
    (∃ st, computeLiveness fn = some st ∧ (CoversLive fn st ↔ SpansLive fn)) ∧
      ∀ l v, LiveAt fn l v → fn.LooksLive l v ∨ fn.Overlooks v := by
  refine ⟨?_, fun l v h => ?_⟩
  · obtain ⟨cfg, st, hcfg, hst, hspanning, hclosed⟩ := computeLiveness_spec fn
    exact ⟨st, hst, coversLive_iff_spansLive hcfg hspanning hclosed⟩
  · by_cases hseen : fn.Overlooks v
    · exact .inr hseen
    · exact .inl (.inr (h.awaited hseen))

/-- A loop that a jump table closes. -/
def tableLoop : MirFunction where
  vregs := [{}]
  insns := [{ op := .mov, dst := .ofVreg 0, a := .ofImm 1 },
    { op := .label, dst := { kind := .label, sym := some "loop" } },
    { op := .call, a := .ofVreg 0 },
    { op := .jmpTable, table := some [some "loop", some "done"] },
    { op := .label, dst := { kind := .label, sym := some "done" } },
    { op := .ret }]

/-- At the table the register is live, its interval ends before. -/
theorem computeLiveness_misses : ∃ st, computeLiveness tableLoop = some st ∧ ¬ CoversLive tableLoop st := by
  have hinterval : (computeLiveness tableLoop).map (fun st => st 0) = some (some { start := 0, stop := 2 }) := by
    decide
  obtain ⟨st, hst, hv⟩ := Option.map_eq_some_iff.mp hinterval
  have hlive : LiveAt tableLoop 3 0 := by
    apply LiveAt.pass (j := 1) (by decide) (by decide)
    exact .pass (j := 2) (by decide) (by decide) (.read (by decide))
  refine ⟨st, hst, fun hcovers => ?_⟩
  obtain ⟨iv, hiv, _, hle⟩ := hcovers 3 0 hlive
  rw [hv] at hiv
  cases hiv
  exact absurd hle (by decide)

end Mettle.Mir

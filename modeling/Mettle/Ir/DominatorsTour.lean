import Mettle.Ir.DominatorsFixpoint

/-!
# The stamps of the dominator tree

The tour enters every reachable block after its parent and leaves it before. When it enters a block,
the blocks on its stack are those above it, so a block that was entered earlier and is not above it
has been left. Comparing the stamps of two blocks therefore decides dominance.
-/

open List Function

namespace Mettle.Ir.Dom

open Mettle.Lib Mettle.Lib.Flow

variable {g : FlowGraph} {order : List ℕ} {idom next : ℕ → Option ℕ}

/-! ## The lists of children -/

/-- The list that starts at a link. -/
inductive Linked (next : ℕ → Option ℕ) : Option ℕ → List ℕ → Prop
  | nil : Linked next none []
  | cons {b : ℕ} {l : List ℕ} : Linked next (next b) l → Linked next (some b) (b :: l)

theorem Linked.congr {next' : ℕ → Option ℕ} {head : Option ℕ} {l : List ℕ} (h : Linked next head l)
    (hsame : ∀ b ∈ l, next b = next' b) : Linked next' head l := by
  induction h with
  | nil => exact .nil
  | @cons b l _ ih =>
    refine .cons ?_
    rw [← hsame b mem_cons_self]
    exact ih fun c hc => hsame c (.tail _ hc)

/-- The children of a block, in order. -/
def kids (entry : ℕ) (idom : ℕ → Option ℕ) (order : List ℕ) (p : ℕ) : List ℕ :=
  order.filter fun b => b ≠ entry ∧ idom b = some p

variable {b block : ℕ} {below : List ℕ} {t : Tour} {left : Finset ℕ}

theorem mem_kids {entry p : ℕ} : b ∈ kids entry idom order p ↔ b ∈ order ∧ b ≠ entry ∧ idom b = some p := by
  simp [kids]

theorem children_spec (entry : ℕ) (idom : ℕ → Option ℕ) (hnodup : order.Nodup) (p : ℕ) :
    Linked (children entry idom order).next ((children entry idom order).head p) (kids entry idom order p) := by
  rw [children, foldl_reverse]
  -- on the order: a block goes to the head of its parent's list
  induction order generalizing p with
  | nil => exact .nil
  | cons b rest ih =>
    rw [nodup_cons] at hnodup
    rw [foldr_cons]
    generalize rest.foldr (fun x y => linkChild entry idom y x) ⟨fun _ => none, fun _ => none⟩ = s at ih ⊢
    have hkeep : ∀ p, (¬ (b ≠ entry ∧ idom b = some p)) → kids entry idom (b :: rest) p = kids entry idom rest p := by
      intro p hp
      exact filter_cons_of_neg (by simpa using hp)
    have hrest : ∀ {p c}, c ∈ kids entry idom rest p → c ≠ b := by
      rintro p c hc rfl
      exact hnodup.1 (mem_kids.mp hc).1
    unfold linkChild
    split
    · rename_i hnone
      rw [hkeep p (by simp [hnone])]
      exact ih hnodup.2 p
    · rename_i parent hparent
      by_cases hentry : b = entry
      · rw [if_pos hentry, hkeep p (by simp [hentry])]
        exact ih hnodup.2 p
      · rw [if_neg hentry]
        have hlinked : Linked (update s.next b (s.head parent)) (s.head p) (kids entry idom rest p) :=
          (ih hnodup.2 p).congr fun c hc => (update_of_ne (hrest hc) ..).symm
        by_cases hp : p = parent
        · rw [hp] at hlinked ⊢
          have hcons : kids entry idom (b :: rest) parent = b :: kids entry idom rest parent :=
            filter_cons_of_pos (by simp [hentry, hparent])
          show Linked _ (update s.head parent (some b) parent) _
          rw [hcons, update_self]
          refine .cons ?_
          show Linked _ (update s.next b (s.head parent) b) _
          rw [update_self]
          exact hlinked
        · rw [hkeep p (by rw [hparent]; simpa using fun _ h => hp h.symm)]
          show Linked _ (update s.head parent (some b) p) _
          rw [update_of_ne hp]
          exact hlinked

/-! ## The tour -/

/-- The tour has been at the block. -/
def Entered (t : Tour) (left : Finset ℕ) (b : ℕ) : Prop := b ∈ t.stack ∨ b ∈ left

/-- What holds of the tour at every step, with the blocks left so far. -/
structure Tour.Inv (g : FlowGraph) (order : List ℕ) (idom next : ℕ → Option ℕ) (t : Tour)
    (left : Finset ℕ) : Prop where
  nodup : t.stack.Nodup
  disjoint : ∀ b ∈ t.stack, b ∉ left
  chain : t.stack.IsChain fun x y => idom x = some y
  entry : Entered t left g.entry
  mem : ∀ b, Entered t left b → b ∈ order
  clock : t.clock = t.stack.length + 2 * left.card
  /-- the children that are still to be entered -/
  cursor : ∀ b, ∃ rest : List ℕ, Linked next (t.cursor b) rest ∧ rest.Nodup ∧
    ∀ c, c ∈ rest ↔ c ∈ kids g.entry idom order b ∧ ¬ Entered t left c
  closed : ∀ b ∈ left, ∀ c ∈ kids g.entry idom order b, Entered t left c
  enter_lt : ∀ b, Entered t left b → t.enter b < t.clock
  leave_lt : ∀ b ∈ left, t.leave b < t.clock
  span : ∀ b ∈ left, t.enter b < t.leave b
  inj : ∀ a b, Entered t left a → Entered t left b → t.enter a = t.enter b → a = b
  /-- a block is entered after its parent and left before it -/
  inside : ∀ b p, Entered t left b → b ≠ g.entry → idom b = some p → Entered t left p ∧
    t.enter p < t.enter b ∧ (p ∈ left → b ∈ left ∧ t.leave b < t.leave p)
  /-- a block entered earlier that is not above has been left -/
  apart : ∀ a b, Entered t left a → Entered t left b → t.enter a < t.enter b →
    ¬ Above idom b a → a ∈ left ∧ t.leave a < t.enter b

theorem Tour.start_inv (ho : IsOrder g order) (idom : ℕ → Option ℕ) :
    (Tour.start g.entry (children g.entry idom order).head).Inv g order idom
      (children g.entry idom order).next ∅ := by
  have hentered : ∀ b, Entered (Tour.start g.entry (children g.entry idom order).head) ∅ b ↔ b = g.entry := by
    intro b
    simp [Entered, Tour.start]
  refine ⟨by simp [Tour.start], by simp, by simp [Tour.start], (hentered _).mpr rfl, ?_,
    by simp [Tour.start], ?_, by simp, ?_, by simp, by simp, ?_, ?_, ?_⟩
  · intro b hb
    rw [(hentered b).mp hb]
    exact ho.mem.mpr reachable_root
  · intro b
    refine ⟨_, children_spec g.entry idom ho.nodup b, ho.nodup.filter _, fun c => ?_⟩
    rw [hentered, mem_kids]
    tauto
  · intro b hb
    simp [Tour.start]
  · intro a b ha hb _
    rw [(hentered a).mp ha, (hentered b).mp hb]
  · intro b p hb hne
    exact absurd ((hentered b).mp hb) hne
  · intro a b ha hb hlt
    rw [(hentered a).mp ha, (hentered b).mp hb] at hlt
    exact absurd hlt (lt_irrefl _)

/-- The blocks on the stack are above its top. -/
theorem above_of_chain {top : ℕ} (h : (top :: below).IsChain fun x y => idom x = some y) (hb : b ∈ top :: below) :
    Above idom top b := by
  induction below generalizing top with
  | nil =>
    rw [mem_singleton.mp hb]
    exact Above.refl top
  | cons c rest ih =>
    rw [isChain_cons_cons] at h
    rcases mem_cons.mp hb with rfl | hb
    · exact Above.refl b
    · exact Above.of_parent h.1 (ih h.2 hb)

/-- The next child is entered. -/
theorem Tour.Inv.enter (h : t.Inv g order idom next left) {child : ℕ} (hstack : t.stack = block :: below)
    (hc : t.cursor block = some child) :
    Tour.Inv g order idom next { t with
      stack := child :: block :: below
      cursor := update t.cursor block (next child)
      enter := update t.enter child t.clock
      clock := t.clock + 1 } left := by
  obtain ⟨rest, hlinked, hrest, hmem⟩ := h.cursor block
  rw [hc] at hlinked
  cases hlinked with
  | @cons _ rest hlinked =>
    -- the child taken from the list has not been entered: its parent is the top of the stack
    obtain ⟨hkid, hnew⟩ := (hmem child).mp mem_cons_self
    obtain ⟨horder, hne, hparent⟩ := mem_kids.mp hkid
    have hblock : Entered t left block := .inl (by rw [hstack]; exact (.head _))
    -- what is entered afterwards is what was entered before, and the child
    have hentered : ∀ b, (b ∈ child :: block :: below ∨ b ∈ left) ↔ b = child ∨ Entered t left b := by
      intro b
      rw [mem_cons, ← hstack, or_assoc]
      rfl
    have hold : ∀ {b}, Entered t left b → b ≠ child := by
      rintro b hb rfl
      exact hnew hb
    -- the stamp of a block entered before is not touched
    have hsame : ∀ {b}, Entered t left b → update t.enter child t.clock b = t.enter b :=
      fun hb => update_of_ne (hold hb) ..
    refine ⟨?_, ?_, ?_, (hentered _).mpr (.inr h.entry), ?_, ?_, ?_, ?_, ?_, ?_, ?_, ?_, ?_, ?_⟩
    · rw [← hstack]
      exact nodup_cons.mpr ⟨fun hin => hnew (.inl hin), h.nodup⟩
    · intro b hb
      rw [← hstack] at hb
      rcases mem_cons.mp hb with rfl | hb
      · exact fun hin => hnew (.inr hin)
      · exact h.disjoint b hb
    · have := h.chain
      rw [hstack] at this
      exact isChain_cons_cons.mpr ⟨hparent, this⟩
    · intro b hb
      rcases (hentered b).mp hb with rfl | hb
      · exact horder
      · exact h.mem b hb
    · have := h.clock
      rw [hstack] at this
      simp only [length_cons] at this ⊢
      omega
    · intro b
      by_cases hb : b = block
      · rw [hb]
        refine ⟨rest, ?_, (nodup_cons.mp hrest).2, fun c => ?_⟩
        · show Linked next (update t.cursor block (next child) block) rest
          rw [update_self]
          exact hlinked
        have hcmem : c ∈ child :: rest ↔ _ := hmem c
        have hnot := (nodup_cons.mp hrest).1
        show c ∈ rest ↔ c ∈ _ ∧ ¬ (c ∈ child :: block :: below ∨ c ∈ left)
        rw [hentered]
        by_cases hcc : c = child
        · rw [hcc]
          exact ⟨fun hin => absurd hin hnot, fun hin => absurd (.inl rfl) hin.2⟩
        · rw [mem_cons] at hcmem
          simpa [hcc] using hcmem
      · obtain ⟨rest', hlinked', hrest', hmem'⟩ := h.cursor b
        refine ⟨rest', ?_, hrest', fun c => ?_⟩
        · show Linked next (update t.cursor block (next child) b) rest'
          rw [update_of_ne hb]
          exact hlinked'
        show c ∈ rest' ↔ c ∈ _ ∧ ¬ (c ∈ child :: block :: below ∨ c ∈ left)
        rw [hmem' c, hentered]
        refine and_congr_right fun hkid' => not_congr ⟨.inr, ?_⟩
        rintro (rfl | hin)
        · rw [(mem_kids.mp hkid').2.2] at hparent
          exact absurd (Option.some.inj hparent) hb
        · exact hin
    · intro b hb c hc'
      exact (hentered c).mpr (.inr (h.closed b hb c hc'))
    · intro b hb
      rcases (hentered b).mp hb with rfl | hb
      · show update t.enter b t.clock b < _
        rw [update_self]
        exact Nat.lt_succ_self _
      · show update t.enter child t.clock b < _
        rw [hsame hb]
        exact (h.enter_lt b hb).trans (Nat.lt_succ_self _)
    · intro b hb
      exact (h.leave_lt b hb).trans (Nat.lt_succ_self _)
    · intro b hb
      show update t.enter child t.clock b < t.leave b
      rw [hsame (.inr hb)]
      exact h.span b hb
    · intro a b ha hb
      show update t.enter child t.clock a = update t.enter child t.clock b → a = b
      rcases (hentered a).mp ha with rfl | ha' <;> rcases (hentered b).mp hb with rfl | hb'
      · exact fun _ => rfl
      · rw [update_self, hsame hb']
        have := h.enter_lt b hb'
        omega
      · rw [update_self, hsame ha']
        have := h.enter_lt a ha'
        omega
      · rw [hsame ha', hsame hb']
        exact h.inj a b ha' hb'
    · intro b p hb hbne hp
      show (p ∈ child :: block :: below ∨ p ∈ left) ∧
        update t.enter child t.clock p < update t.enter child t.clock b ∧ _
      rcases (hentered b).mp hb with rfl | hb
      · rw [hparent] at hp
        cases hp
        refine ⟨(hentered _).mpr (.inr hblock), ?_, fun hin => ?_⟩
        · rw [update_self, hsame hblock]
          exact h.enter_lt _ hblock
        · exact absurd hin (h.disjoint _ (by rw [hstack]; exact (.head _)))
      · obtain ⟨hpin, hlt, hleave⟩ := h.inside b p hb hbne hp
        rw [hsame hpin, hsame hb]
        exact ⟨(hentered p).mpr (.inr hpin), hlt, hleave⟩
    · intro a b ha hb
      show update t.enter child t.clock a < update t.enter child t.clock b → _ →
        a ∈ left ∧ t.leave a < update t.enter child t.clock b
      rcases (hentered a).mp ha with rfl | ha'
      · rcases (hentered b).mp hb with rfl | hb'
        · exact fun hlt => absurd hlt (lt_irrefl _)
        · rw [update_self, hsame hb']
          have := h.enter_lt b hb'
          omega
      · rcases (hentered b).mp hb with rfl | hb'
        · -- what is on the stack is above the child
          intro _ hnot
          rw [update_self]
          have hleft : a ∈ left := ha'.resolve_left fun hin => hnot
            (Above.of_parent hparent (above_of_chain (by rw [← hstack]; exact h.chain) (by rw [← hstack]; exact hin)))
          exact ⟨hleft, h.leave_lt a hleft⟩
        · rw [hsame ha', hsame hb']
          exact h.apart a b ha' hb'

/-- A block without further children is left. -/
theorem Tour.Inv.leave (ht : g.flow.Tree order.idxOf idom) (h : t.Inv g order idom next left)
    (hstack : t.stack = block :: below) (hc : t.cursor block = none) :
    Tour.Inv g order idom next { t with
      stack := below
      leave := update t.leave block t.clock
      clock := t.clock + 1 } (insert block left) := by
  obtain ⟨rest, hlinked, -, hmem⟩ := h.cursor block
  rw [hc] at hlinked
  cases hlinked
  have hkids : ∀ c ∈ kids g.entry idom order block, Entered t left c := by
    intro c hc'
    by_contra hnew
    exact absurd ((hmem c).mpr ⟨hc', hnew⟩) not_mem_nil
  have hnodup := h.nodup
  rw [hstack, nodup_cons] at hnodup
  have hfresh : block ∉ left := h.disjoint block (by rw [hstack]; exact (.head _))
  have hentered : ∀ b, (b ∈ below ∨ b ∈ insert block left) ↔ Entered t left b := by
    intro b
    rw [Entered, hstack, mem_cons, Finset.mem_insert]
    tauto
  have hold : ∀ {b}, b ∈ left → b ≠ block := by
    rintro b hb rfl
    exact hfresh hb
  have hsame : ∀ {b}, b ∈ left → update t.leave block t.clock b = t.leave b :=
    fun hb => update_of_ne (hold hb) ..
  -- an entered child of the block has been left: on the stack it would come below its parent
  have hchild : ∀ {b}, Entered t left b → b ≠ g.entry → idom b = some block → b ∈ left := by
    intro b hb hne hp
    refine hb.resolve_left fun hin => ?_
    have habove : Above idom block b :=
      above_of_chain (by rw [← hstack]; exact h.chain) (by rw [← hstack]; exact hin)
    have := ht.rank_le habove
    have := ht.lt hne hp
    omega
  refine ⟨hnodup.2, ?_, ?_, (hentered _).mpr h.entry, fun b hb => h.mem b ((hentered b).mp hb), ?_, ?_, ?_,
    ?_, ?_, ?_, ?_, ?_, ?_⟩
  · intro b hb
    rw [Finset.mem_insert, not_or]
    refine ⟨?_, h.disjoint b (by rw [hstack]; exact .tail _ hb)⟩
    rintro rfl
    exact hnodup.1 hb
  · have := h.chain
    rw [hstack] at this
    exact this.tail
  · have := h.clock
    rw [hstack] at this
    simp only [Finset.card_insert_of_notMem hfresh, length_cons] at this ⊢
    omega
  · intro b
    obtain ⟨rest, hlinked, hrest, hmem⟩ := h.cursor b
    refine ⟨rest, hlinked, hrest, fun c => ?_⟩
    show c ∈ rest ↔ c ∈ _ ∧ ¬ (c ∈ below ∨ c ∈ insert block left)
    rw [hentered]
    exact hmem c
  · intro b hb c hc'
    refine (hentered c).mpr ?_
    rcases Finset.mem_insert.mp hb with rfl | hb
    · exact hkids c hc'
    · exact h.closed b hb c hc'
  · intro b hb
    exact (h.enter_lt b ((hentered b).mp hb)).trans (Nat.lt_succ_self _)
  · intro b hb
    show update t.leave block t.clock b < t.clock + 1
    rcases Finset.mem_insert.mp hb with rfl | hb
    · rw [update_self]
      exact Nat.lt_succ_self _
    · rw [hsame hb]
      exact (h.leave_lt b hb).trans (Nat.lt_succ_self _)
  · intro b hb
    show t.enter b < update t.leave block t.clock b
    rcases Finset.mem_insert.mp hb with rfl | hb
    · rw [update_self]
      exact h.enter_lt b (.inl (by rw [hstack]; exact (.head _)))
    · rw [hsame hb]
      exact h.span b hb
  · intro a b ha hb
    exact h.inj a b ((hentered a).mp ha) ((hentered b).mp hb)
  · intro b p hb hne hp
    have hb' := (hentered b).mp hb
    obtain ⟨hpin, hlt, hleave⟩ := h.inside b p hb' hne hp
    refine ⟨(hentered p).mpr hpin, hlt, fun hin => ?_⟩
    show b ∈ insert block left ∧ update t.leave block t.clock b < update t.leave block t.clock p
    rcases Finset.mem_insert.mp hin with rfl | hin
    · have hbin := hchild hb' hne hp
      rw [update_self, hsame hbin]
      exact ⟨Finset.mem_insert_of_mem hbin, h.leave_lt b hbin⟩
    · obtain ⟨hbin, hle⟩ := hleave hin
      rw [hsame hin, hsame hbin]
      exact ⟨Finset.mem_insert_of_mem hbin, hle⟩
  · intro a b ha hb hlt hnot
    obtain ⟨hin, hle⟩ := h.apart a b ((hentered a).mp ha) ((hentered b).mp hb) hlt hnot
    refine ⟨Finset.mem_insert_of_mem hin, ?_⟩
    show update t.leave block t.clock a < t.enter b
    rw [hsame hin]
    exact hle

/-- A block is entered at most once. -/
theorem Tour.Inv.clock_le (h : t.Inv g order idom next left) : t.clock ≤ 2 * order.length := by
  have hdisjoint : Disjoint t.stack.toFinset left := by
    rw [Finset.disjoint_left]
    intro b hb
    exact h.disjoint b (mem_toFinset.mp hb)
  have hsub : t.stack.toFinset ∪ left ⊆ order.toFinset := by
    intro b hb
    rw [mem_toFinset]
    refine h.mem b ?_
    rwa [Finset.mem_union, mem_toFinset] at hb
  have hcard := Finset.card_le_card hsub
  rw [Finset.card_union_of_disjoint hdisjoint, toFinset_card_of_nodup h.nodup] at hcard
  have := toFinset_card_le order
  have := h.clock
  omega

/-- The stamps of the reachable blocks agree with the tree. -/
def IsStamped (g : FlowGraph) (idom : ℕ → Option ℕ) (t : Tour) : Prop :=
  ∀ {a b : ℕ}, g.flow.Reachable a → g.flow.Reachable b →
    (t.enter a ≤ t.enter b ∧ t.leave b ≤ t.leave a ↔ Above idom b a)

/-- Once everything has been left, the stamps decide which block is above. -/
theorem Tour.Inv.stamped (ho : IsOrder g order) (hd : IsDomTree g order idom) (h : t.Inv g order idom next left)
    (hstack : t.stack = []) : IsStamped g idom t := by
  have hentered : ∀ {b}, Entered t left b ↔ b ∈ left := by
    intro b
    simp [Entered, hstack]
  have hall : ∀ {b}, g.flow.Reachable b → b ∈ left := by
    intro b hb
    -- on the position in the order: the parent comes before the block
    induction hn : order.idxOf b using Nat.strong_induction_on generalizing b with
    | _ n ih =>
      by_cases hne : b = g.entry
      · rw [hne]
        exact hentered.mp h.entry
      · obtain ⟨p, hp, -⟩ := hd.settled hb hne
        have hlt := hd.converging.lt hne hp
        have hpin := ih (order.idxOf p) (by omega) (hd.isSome_iff.mp (hd.converging.closed hp)) rfl
        exact hentered.mp (h.closed p hpin b (mem_kids.mpr ⟨ho.mem.mpr hb, hne, hp⟩))
  intro a b ha hb
  constructor
  · rintro ⟨henter, hleave⟩
    by_contra hnot
    have hab : a ≠ b := by
      rintro rfl
      exact hnot (Above.refl a)
    have hne : t.enter a ≠ t.enter b :=
      fun heq => hab (h.inj a b (.inr (hall ha)) (.inr (hall hb)) heq)
    obtain ⟨-, hlt⟩ := h.apart a b (.inr (hall ha)) (.inr (hall hb)) (by omega) hnot
    have := h.span b (hall hb)
    omega
  -- on the path up the tree
  · intro habove
    induction habove using Relation.ReflTransGen.head_induction_on with
    | refl => exact ⟨le_rfl, le_rfl⟩
    | @head b p hstep _ ih =>
      by_cases hne : b = g.entry
      · have hroot : idom b = some b := by
          rw [hne]
          exact hd.converging.root
        rw [hroot] at hstep
        rw [Option.some.inj hstep] at hb ⊢
        exact ih hb
      · obtain ⟨henter, hleave⟩ := ih (hd.isSome_iff.mp (hd.converging.closed hstep))
        obtain ⟨hpin, hlt, hin⟩ := h.inside b p (.inr (hall hb)) hne hstep
        have := (hin (hentered.mp hpin)).2
        omega

/-- The tour ends with the stamps of all reachable blocks. -/
theorem tour_spec (ho : IsOrder g order) (hd : IsDomTree g order idom) {fuel : ℕ} (hfuel : 2 * order.length < fuel) :
    ∃ t, tour g.entry fuel (children g.entry idom order) = some t ∧ IsStamped g idom t := by
  let Inv : Tour → Prop := fun t =>
    ∃ left, t.Inv g order idom (children g.entry idom order).next left
  have hbody : ∀ t, Inv t → (!t.stack.isEmpty) = true →
      ∃ t', Tour.step (children g.entry idom order).next t = some t' ∧ Inv t' ∧
        2 * order.length + 1 - t'.clock < 2 * order.length + 1 - t.clock := by
    rintro t ⟨left, ht⟩ hcond
    cases hstack : t.stack with
    | nil => simp [hstack] at hcond
    | cons block below =>
      simp only [Tour.step, hstack]
      cases hc : t.cursor block with
      | some child =>
        have hnext := ht.enter hstack hc
        have hle := ht.clock_le
        refine ⟨_, rfl, ⟨left, hnext⟩, ?_⟩
        dsimp only
        omega
      | none =>
        have hnext := ht.leave hd.converging.toTree hstack hc
        have hle := ht.clock_le
        refine ⟨_, rfl, ⟨insert block left, hnext⟩, ?_⟩
        dsimp only
        omega
  have hstart : 2 * order.length + 1 - (Tour.start g.entry (children g.entry idom order).head).clock <
      fuel := by
    show 2 * order.length + 1 - 1 < fuel
    omega
  obtain ⟨t, ht, ⟨left, hinv⟩, hstop⟩ :=
    loop_total hbody ⟨∅, Tour.start_inv ho idom⟩ hstart
  exact ⟨t, ht, hinv.stamped ho hd (by simpa using hstop)⟩

end Mettle.Ir.Dom

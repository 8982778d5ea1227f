import Mettle.Ir.Cse

/-!
# The table of available expressions

What the table holds is the set of its live entries (`Live`). The index, the chains of names, the list of
the entries with symbols and the name filter only speed up the questions asked of it: as long as they
cover the live entries (`TableOk`), a lookup answers from the set and each update is an update of it.
-/

namespace Mettle.Ir

open Mettle.Lib List Option

/-- An operand of the entry names the variable. -/
def ExprEntry.Names (e : ExprEntry) (x : String) : Prop :=
  e.lhs.var = some x ∨ e.rhs.var = some x ∨ e.value.var = some x

/-- An operand of the entry is a symbol. -/
def ExprEntry.HasSymbol (e : ExprEntry) : Prop :=
  e.lhs.kind = .symbol ∨ e.rhs.kind = .symbol ∨ e.value.kind = .symbol

namespace ExprMap

variable {hash : String → UInt64} {m : ExprMap} {e : ExprEntry} {i : Inst} {k : ℕ}

/-- A live entry of the table. -/
def Live (m : ExprMap) (e : ExprEntry) : Prop := e ∈ m.items ∧ e.alive = true

/-- The slots of the index: half of them are free, and a walk from the hash of a live entry comes to
it. -/
structure Indexed (hash : String → UInt64) (items : List ExprEntry) (slots : List ℕ) : Prop where
  room : (items.length + 1) * 2 ≤ slots.length
  taken : slots.countP (· ≠ 0) ≤ items.length
  reaches : ∀ k, (items.getD k {}).alive = true →
    Reaches slots ((entryHash hash (items.getD k {})).toNat % slots.length) (k + 1)

/-- The chains, the list of symbols and the name filter cover the live entries. -/
structure Covered (hash : String → UInt64) (m : ExprMap) : Prop where
  noted : ∀ k x, (m.items.getD k {}).alive = true → (m.items.getD k {}).Names x →
    nameHash hash x ∈ m.nameHashes
  occurs : ∀ k x, (m.items.getD k {}).alive = true → (m.items.getD k {}).Names x →
    (nameHash hash x, k) ∈ m.occ
  symbols : ∀ k, (m.items.getD k {}).alive = true → (m.items.getD k {}).HasSymbol → k ∈ m.symEntries

/-- The side structures cover the live entries. -/
structure TableOk (hash : String → UInt64) (m : ExprMap) : Prop extends Covered hash m where
  indexed : m.exprValid = true → Indexed hash m.items m.exprSlots

theorem lt_of_alive (h : (m.items.getD k {}).alive = true) : k < m.items.length := by
  by_contra hk
  rw [getD_eq_default _ _ (by omega)] at h
  cases h

theorem live_of_alive (h : (m.items.getD k {}).alive = true) : m.Live (m.items.getD k {}) := by
  refine ⟨?_, h⟩
  rw [getD_eq_getElem _ _ (lt_of_alive h)]
  exact getElem_mem _

theorem Live.exists_index (h : m.Live e) : ∃ k, m.items.getD k {} = e := by
  obtain ⟨k, hk, rfl⟩ := mem_iff_getElem.mp h.1
  exact ⟨k, getD_eq_getElem _ _ hk⟩

/-- The live entries are those alive at some place. -/
theorem live_iff : m.Live e ↔ ∃ k, m.items.getD k {} = e ∧ e.alive = true := by
  constructor
  · intro h
    obtain ⟨k, hk⟩ := h.exists_index
    exact ⟨k, hk, h.2⟩
  · rintro ⟨k, rfl, halive⟩
    exact live_of_alive halive

/-! ## Clearing -/

theorem tableOk_empty : TableOk hash {} where
  noted := fun k x h => by simp at h
  occurs := fun k x h => by simp at h
  symbols := fun k h => by simp at h
  indexed := fun h => by cases h

theorem tableOk_clear (m : ExprMap) : TableOk hash m.clear where
  noted := fun k x h => by simp [clear] at h
  occurs := fun k x h => by simp [clear] at h
  symbols := fun k h => by simp [clear] at h
  indexed := fun h => by cases h

theorem not_live_clear : ¬ m.clear.Live e := by
  rintro ⟨h, -⟩
  simp [clear] at h

/-! ## The index -/

/-- Equal operands have the same hash. -/
theorem equals_operandHash {a b : Operand} (h : a.equals b = true) :
    operandHash hash a = operandHash hash b := by
  unfold Operand.equals at h
  rw [Bool.and_eq_true, decide_eq_true_eq] at h
  obtain ⟨hkind, hfields⟩ := h
  unfold operandHash
  rw [← hkind]
  cases hk : a.kind <;> simp only [hk, decide_eq_true_eq] at hfields ⊢
  case int => rw [hfields]
  case string => rw [hfields.2]
  case temp => rw [hfields.2]
  case symbol => rw [hfields.2]
  case label => rw [hfields.2]

/-- An entry that matches an instruction is looked for where it was put. -/
theorem matchesInst_hash (h : e.matchesInst i = true) :
    entryHash hash e = shapeHash hash i.exprEntry.kind i.isFloat i.text i.lhs i.rhs := by
  unfold ExprEntry.matchesInst at h
  unfold entryHash Inst.exprEntry
  cases hk : e.kind <;> simp only [hk, decide_eq_true_eq] at h
  case binary =>
    obtain ⟨hop, -, htext, hfloat, ⟨hl, hr⟩ | ⟨-, hl, hr⟩⟩ := h
    · simp only [hop, shapeHash, htext, hfloat, equals_operandHash hl, equals_operandHash hr]
    · simp only [hop, shapeHash, htext, hfloat, equals_operandHash hl, equals_operandHash hr]
      simp only [reduceCtorEq, not_false_eq_true, if_true, ne_eq]
      rw [add_comm (operandHash hash i.rhs)]
  case unary =>
    obtain ⟨hop, -, htext, hfloat, hl⟩ := h
    simp [hop, shapeHash, htext, hfloat, equals_operandHash hl]
  case cast =>
    obtain ⟨hop, -, htext, hfloat, hl⟩ := h
    simp [hop, shapeHash, htext, hfloat, equals_operandHash hl]
  case addressOf =>
    obtain ⟨hop, hl⟩ := h
    simp [hop, shapeHash, equals_operandHash hl]

variable {slots : List ℕ} {items : List ExprEntry} {kind : OperandKind}

/-- Putting an entry in an index with a free slot. -/
theorem indexPut_spec (hash : String → UInt64) (items : List ExprEntry) (k : ℕ)
    (hfree : slots.countP (· ≠ 0) < slots.length) :
    ∃ t < slots.length, slots.getD t 0 = 0 ∧ indexPut hash items slots k = some (slots.set t (k + 1)) ∧
      Reaches (slots.set t (k + 1)) ((entryHash hash (items.getD k {})).toNat % slots.length)
        (k + 1) := by
  have hstart : (entryHash hash (items.getD k {})).toNat % slots.length < slots.length :=
    Nat.mod_lt _ (by omega)
  obtain ⟨t, ht, hzero⟩ := exists_free hfree
  obtain ⟨u, hu⟩ := isSome_iff_exists.mp
    (probe_isSome (fun s => slots.getD s 0 = 0) hstart ht (by simpa using hzero))
  obtain ⟨d, hd, hstop, -⟩ := probe_eq_some hstart hu
  refine ⟨u, ?_, by simpa using hstop, ?_, reaches_probe hstart hu (by omega)⟩
  · rw [hd]
    exact Nat.mod_lt _ (by omega)
  · simp only [indexPut, hu, map_some]

theorem Indexed.free (h : Indexed hash items slots) : slots.countP (· ≠ 0) < slots.length := by
  have := h.room
  have := h.taken
  omega

/-- Doubling reaches every bound. -/
theorem grow_ge (bound : ℕ) (n : ℕ) (fuel : ℕ) (hn : 0 < n) (hfuel : bound ≤ n + fuel) :
    bound ≤ grow bound fuel n := by
  induction fuel generalizing n with
  | zero => simpa [grow] using hfuel
  | succ fuel ih =>
    unfold grow
    split
    · exact ih (n * 2) (by omega) (by omega)
    · omega

/-- Putting the live entries one by one in an empty index. -/
theorem foldlM_indexPut (hash : String → UInt64) (items : List ExprEntry) (todo : List ℕ) (slots : List ℕ)
    (hroom : slots.countP (· ≠ 0) + todo.length < slots.length) :
    ∃ out, todo.foldlM (indexPut hash items) slots = some out ∧ out.length = slots.length ∧
      out.countP (· ≠ 0) = slots.countP (· ≠ 0) + todo.length ∧
      (∀ k ∈ todo, Reaches out ((entryHash hash (items.getD k {})).toNat % slots.length) (k + 1)) ∧
      ∀ s v, v ≠ 0 → Reaches slots s v → Reaches out s v := by
  induction todo generalizing slots with
  | nil => exact ⟨slots, rfl, rfl, by simp, by simp, fun s v _ h => h⟩
  | cons k todo ih =>
    rw [length_cons] at hroom
    obtain ⟨t, ht, hzero, hput, hreach⟩ :=
      indexPut_spec hash items k (show slots.countP (· ≠ 0) < slots.length by omega)
    have hcount := countP_set_free (v := k + 1) ht hzero (by omega)
    obtain ⟨out, hout, hlen, hcnt, hnew, hkeep⟩ := ih (slots.set t (k + 1)) (by
      rw [hcount, length_set]
      omega)
    rw [length_set] at hlen hnew
    refine ⟨out, ?_, hlen, by rw [hcnt, hcount, length_cons]; omega, ?_, ?_⟩
    · rw [foldlM_cons, hput]
      exact hout
    · intro k' hk'
      rcases mem_cons.mp hk' with rfl | hk'
      · exact hkeep _ _ (by omega) hreach
      · exact hnew k' hk'
    · intro s v hv h
      exact hkeep s v hv (h.set ht hzero hv (by omega))

/-- A build of the index stops and indexes the live entries. -/
theorem indexBuild_spec (hash : String → UInt64) (m : ExprMap) :
    ∃ slots, m.indexBuild hash = some { m with exprSlots := slots, exprValid := true } ∧
      Indexed hash m.items slots := by
  have hneeded : (m.items.length + 1) * 2 ≤
      max m.exprSlots.length (grow ((m.items.length + 1) * 2) ((m.items.length + 1) * 2) 16) :=
    le_max_of_le_right (grow_ge _ 16 _ (by omega) (by omega))
  have halive : ((range m.items.length).filter fun k => (m.items.getD k {}).alive).length ≤
      m.items.length := (length_filter_le _ _).trans (by simp)
  obtain ⟨out, hout, hlen, hcnt, hnew, -⟩ := foldlM_indexPut hash m.items
    ((range m.items.length).filter fun k => (m.items.getD k {}).alive)
    (replicate (max m.exprSlots.length
      (grow ((m.items.length + 1) * 2) ((m.items.length + 1) * 2) 16)) 0) (by
      rw [length_replicate, countP_replicate]
      simp only [ne_eq, not_true, decide_false, Bool.false_eq_true, if_false]
      omega)
  rw [length_replicate] at hlen hnew
  refine ⟨out, ?_, ?_, ?_, ?_⟩
  · simp only [indexBuild, hout, map_some]
  · rw [hlen]
    exact hneeded
  · rw [hcnt, countP_replicate]
    simpa using halive
  · intro k hk
    rw [hlen]
    exact hnew k (mem_filter.mpr ⟨mem_range.mpr (lt_of_alive hk), hk⟩)

/-! ## Lookups -/

/-- A lookup answers from the live entries. -/
theorem find_spec (hok : TableOk hash m) (i : Inst) :
    ∃ m' r, m.find hash i = some (m', r) ∧ TableOk hash m' ∧ m'.items = m.items ∧
      (∀ k ∈ r, (m.items.getD k {}).alive = true ∧ (m.items.getD k {}).matchesInst i = true) ∧
      (r = none → ∀ e, m.Live e → e.matchesInst i = false) := by
  unfold find
  by_cases hitems : m.items = []
  · refine ⟨m, none, by simp [hitems], hok, rfl, by simp, ?_⟩
    rintro - e ⟨he, -⟩
    simp [hitems] at he
  obtain ⟨m', hm', hok', hsame, hidx⟩ : ∃ m',
      (if m.exprValid then some m else m.indexBuild hash) = some m' ∧ TableOk hash m' ∧
        m'.items = m.items ∧ Indexed hash m.items m'.exprSlots := by
    by_cases hvalid : m.exprValid = true
    · exact ⟨m, by rw [if_pos hvalid], hok, rfl, hok.indexed hvalid⟩
    · obtain ⟨slots, hbuild, hidx⟩ := indexBuild_spec hash m
      exact ⟨{ m with exprSlots := slots, exprValid := true }, by rw [if_neg hvalid, hbuild],
        ⟨⟨hok.noted, hok.occurs, hok.symbols⟩, fun _ => hidx⟩, rfl, hidx⟩
  have hpos : 0 < m'.exprSlots.length := by
    have := hidx.room
    omega
  obtain ⟨t, ht, hzero⟩ := exists_free hidx.free
  simp only [hitems, if_false, hm', bind_some, hsame]
  generalize hstart : (shapeHash hash i.exprEntry.kind i.isFloat i.text i.lhs i.rhs).toNat %
    m'.exprSlots.length = start
  have hlt : start < m'.exprSlots.length := by
    rw [← hstart]
    exact Nat.mod_lt _ hpos
  obtain ⟨u, hu⟩ := isSome_iff_exists.mp (probe_isSome (fun s =>
    m'.exprSlots.getD s 0 = 0 ∨ m'.exprSlots.getD s 0 ≤ m.items.length ∧
      (m.items.getD (m'.exprSlots.getD s 0 - 1) {}).alive = true ∧
      (m.items.getD (m'.exprSlots.getD s 0 - 1) {}).matchesInst i = true) hlt ht (by
    simp only [decide_eq_true_eq]
    exact Or.inl hzero))
  obtain ⟨d, hd, hstop, hbefore⟩ := probe_eq_some hlt hu
  refine ⟨m', _, by rw [hu, map_some], hok', hsame, ?_, ?_⟩
  · intro k hk
    split at hk
    · cases hk
    · rename_i htaken
      cases hk
      simp only [decide_eq_true_eq] at hstop
      exact (hstop.resolve_left htaken).2
  · intro hnone e hlive
    by_contra hmatch
    rw [Bool.not_eq_false] at hmatch
    obtain ⟨k, rfl⟩ := hlive.exists_index
    obtain ⟨d', hd', htaken⟩ := hidx.reaches k hlive.2
    rw [matchesInst_hash hmatch, hstart] at hd' htaken
    -- the walk stops at the entry at the latest, and all slots up to it are taken
    have hle : d ≤ d' := by
      by_contra hgt
      have := hbefore d' (by omega)
      simp only [hd', decide_eq_false_iff_not] at this
      refine this (Or.inr ⟨?_, hlive.2, hmatch⟩)
      have := lt_of_alive hlive.2
      omega
    have hfull : m'.exprSlots.getD u 0 ≠ 0 := by
      rw [hd]
      rcases hle.eq_or_lt with rfl | hlt'
      · rw [hd']
        omega
      · exact htaken d hlt'
    rw [if_neg hfull] at hnone
    cases hnone

/-! ## Killing entries -/

/-- Kill the entries with a property, among the given ones. -/
def killWhere (p : ExprEntry → Bool) (m : ExprMap) (indices : List ℕ) : ExprMap :=
  indices.foldl (fun m k =>
    if (m.items.getD k {}).alive = true ∧ p (m.items.getD k {}) = true then m.kill k else m) m

/-- The entries after one was killed. -/
theorem getD_kill (h : (m.items.getD k {}).alive = true) (n : ℕ) :
    (m.kill k).items.getD n {} = if n = k then {} else m.items.getD n {} := by
  unfold kill
  rw [if_pos h]
  simp only [getD_eq_getElem?_getD, List.getElem?_set]
  by_cases hn : n = k
  · subst hn
    simp [lt_of_alive h]
  · rw [if_neg (fun h => hn h.symm), if_neg hn]

theorem tableOk_kill (hok : TableOk hash m) (k : ℕ) : TableOk hash (m.kill k) := by
  by_cases h : (m.items.getD k {}).alive = true
  -- the entries that live on are those that lived, but one
  · have hcases : ∀ n, ((m.kill k).items.getD n {}).alive = true →
        (m.kill k).items.getD n {} = m.items.getD n {} := by
      intro n hn
      rw [getD_kill h] at hn ⊢
      split at hn
      · cases hn
      · rename_i hne
        rw [if_neg hne]
    have hrest : (m.kill k).nameHashes = m.nameHashes ∧ (m.kill k).occ = m.occ ∧
        (m.kill k).symEntries = m.symEntries ∧ (m.kill k).exprValid = m.exprValid ∧
        (m.kill k).exprSlots = m.exprSlots ∧ (m.kill k).items.length = m.items.length := by
      unfold kill
      rw [if_pos h]
      simp
    obtain ⟨hnames, hocc, hsym, hvalid, hslots, hlen⟩ := hrest
    refine ⟨⟨fun n x hn hx => ?_, fun n x hn hx => ?_, fun n hn hx => ?_⟩, fun hv => ?_⟩
    · have hsame := hcases n hn
      rw [hsame] at hn hx
      rw [hnames]
      exact hok.noted n x hn hx
    · have hsame := hcases n hn
      rw [hsame] at hn hx
      rw [hocc]
      exact hok.occurs n x hn hx
    · have hsame := hcases n hn
      rw [hsame] at hn hx
      rw [hsym]
      exact hok.symbols n hn hx
    · rw [hvalid] at hv
      obtain ⟨hroom, htaken, hreach⟩ := hok.indexed hv
      rw [hslots]
      refine ⟨by rw [hlen]; exact hroom, by rw [hlen]; exact htaken, fun n hn => ?_⟩
      have hsame := hcases n hn
      rw [hsame] at hn ⊢
      exact hreach n hn
  · unfold kill
    rw [if_neg h]
    exact hok

/-- Killing covers the indices it is given and changes nothing else. -/
theorem killWhere_spec (p : ExprEntry → Bool) (hok : TableOk hash m) (indices : List ℕ) :
    TableOk hash (killWhere p m indices) ∧
      (∀ n, ((killWhere p m indices).items.getD n {}).alive = true →
        (killWhere p m indices).items.getD n {} = m.items.getD n {} ∧
          (n ∈ indices → p (m.items.getD n {}) = false)) ∧
      ∀ n, (m.items.getD n {}).alive = true → p (m.items.getD n {}) = false →
        (killWhere p m indices).items.getD n {} = m.items.getD n {} := by
  -- on the indices; an entry killed before stays killed
  induction indices generalizing m with
  | nil => exact ⟨hok, fun n hn => ⟨rfl, by simp⟩, fun n _ _ => rfl⟩
  | cons k indices ih =>
    have hstep : killWhere p m (k :: indices) = killWhere p
        (if (m.items.getD k {}).alive = true ∧ p (m.items.getD k {}) = true then m.kill k else m)
        indices := rfl
    rw [hstep]
    split
    · rename_i hk
      obtain ⟨hok', hdead, hkept⟩ := ih (tableOk_kill hok k)
      refine ⟨hok', fun n hn => ?_, fun n hn hp => ?_⟩
      · obtain ⟨heq, hp⟩ := hdead n hn
        rw [heq] at hn
        rw [heq]
        rw [getD_kill hk.1] at hn hp ⊢
        by_cases hnk : n = k
        · rw [if_pos hnk] at hn
          cases hn
        · rw [if_neg hnk] at hp ⊢
          exact ⟨rfl, fun h => hp ((mem_cons.mp h).resolve_left hnk)⟩
      · have hnk : n ≠ k := by
          rintro rfl
          rw [hp] at hk
          cases hk.2
        have hsame : (m.kill k).items.getD n {} = m.items.getD n {} := by
          rw [getD_kill hk.1, if_neg hnk]
        rw [hkept n (by rw [hsame]; exact hn) (by rw [hsame]; exact hp), hsame]
    · rename_i hk
      obtain ⟨hok', hdead, hkept⟩ := ih hok
      refine ⟨hok', fun n hn => ?_, hkept⟩
      obtain ⟨heq, hp⟩ := hdead n hn
      refine ⟨heq, fun h => ?_⟩
      rcases mem_cons.mp h with rfl | h
      · rw [heq] at hn
        by_contra hp'
        exact hk ⟨hn, by simpa using hp'⟩
      · exact hp h

/-- When the indices cover what is to be killed, the rest of the live entries is left. -/
theorem live_killWhere (p : ExprEntry → Bool) (hok : TableOk hash m) {indices : List ℕ}
    (hcover : ∀ k, (m.items.getD k {}).alive = true → p (m.items.getD k {}) = true → k ∈ indices) :
    (killWhere p m indices).Live e ↔ m.Live e ∧ p e = false := by
  obtain ⟨-, hdead, hkept⟩ := killWhere_spec p hok indices
  rw [live_iff, live_iff]
  constructor
  · rintro ⟨k, rfl, hk⟩
    obtain ⟨heq, hp⟩ := hdead k hk
    rw [heq] at hk ⊢
    refine ⟨⟨k, rfl, hk⟩, ?_⟩
    by_contra hpk
    rw [Bool.not_eq_false] at hpk
    rw [hp (hcover k hk hpk)] at hpk
    cases hpk
  · rintro ⟨⟨k, rfl, hk⟩, hp⟩
    have := hkept k hk hp
    exact ⟨k, this, hk⟩

/-! ## Registering entries -/

/-- What registering entries leaves alone. -/
structure SameEntries (m m' : ExprMap) : Prop where
  items : m'.items = m.items
  nameHashes : m'.nameHashes = m.nameHashes
  exprValid : m'.exprValid = m.exprValid
  exprSlots : m'.exprSlots = m.exprSlots
  occ : ∀ o ∈ m.occ, o ∈ m'.occ
  symEntries : ∀ k ∈ m.symEntries, k ∈ m'.symEntries

theorem SameEntries.refl (m : ExprMap) : SameEntries m m :=
  ⟨rfl, rfl, rfl, rfl, fun _ h => h, fun _ h => h⟩

theorem SameEntries.trans {m₁ m₂ m₃ : ExprMap} (h : SameEntries m₁ m₂) (h' : SameEntries m₂ m₃) :
    SameEntries m₁ m₃ where
  items := h'.items.trans h.items
  nameHashes := h'.nameHashes.trans h.nameHashes
  exprValid := h'.exprValid.trans h.exprValid
  exprSlots := h'.exprSlots.trans h.exprSlots
  occ := fun o ho => h'.occ o (h.occ o ho)
  symEntries := fun k hk => h'.symEntries k (h.symEntries k hk)

/-- The occurrence of a variable is noted under its hash. -/
theorem addOccurrence_spec (hash : String → UInt64) (m : ExprMap) (o : Operand) (k : ℕ) :
    SameEntries m (m.addOccurrence hash o k) ∧
      ∀ x, o.var = some x → (nameHash hash x, k) ∈ (m.addOccurrence hash o k).occ := by
  unfold addOccurrence
  split
  · rename_i y hy
    refine ⟨⟨rfl, rfl, rfl, rfl, fun o ho => mem_cons_of_mem _ ho, fun _ h => h⟩, ?_⟩
    intro x hx
    obtain rfl := some.inj (hy.symm.trans hx)
    exact .head _
  · rename_i hnone
    refine ⟨SameEntries.refl m, fun x hx => ?_⟩
    rw [hnone] at hx
    cases hx

/-- Registering an entry covers it. -/
theorem registerEntry_spec (hash : String → UInt64) (m : ExprMap) (k : ℕ) :
    SameEntries m (m.registerEntry hash k) ∧
      (∀ x, (m.items.getD k {}).Names x → (nameHash hash x, k) ∈ (m.registerEntry hash k).occ) ∧
      ((m.items.getD k {}).HasSymbol → k ∈ (m.registerEntry hash k).symEntries) := by
  obtain ⟨hsame₁, hnew₁⟩ := addOccurrence_spec hash m (m.items.getD k {}).lhs k
  obtain ⟨hsame₂, hnew₂⟩ := addOccurrence_spec hash
    (m.addOccurrence hash (m.items.getD k {}).lhs k) (m.items.getD k {}).rhs k
  obtain ⟨hsame₃, hnew₃⟩ := addOccurrence_spec hash
    ((m.addOccurrence hash (m.items.getD k {}).lhs k).addOccurrence hash (m.items.getD k {}).rhs k)
    (m.items.getD k {}).value k
  have hsame := (hsame₁.trans hsame₂).trans hsame₃
  have hnames : ∀ x, (m.items.getD k {}).Names x → (nameHash hash x, k) ∈
      (((m.addOccurrence hash (m.items.getD k {}).lhs k).addOccurrence hash (m.items.getD k {}).rhs
        k).addOccurrence hash (m.items.getD k {}).value k).occ := by
    rintro x (hx | hx | hx)
    · exact hsame₃.occ _ (hsame₂.occ _ (hnew₁ x hx))
    · exact hsame₃.occ _ (hnew₂ x hx)
    · exact hnew₃ x hx
  unfold registerEntry
  simp only
  split
  · refine ⟨⟨hsame.items, hsame.nameHashes, hsame.exprValid, hsame.exprSlots, hsame.occ, ?_⟩, hnames, ?_⟩
    · intro k' hk'
      exact mem_append_left _ (hsame.symEntries k' hk')
    · intro _
      exact mem_append_right _ (by simp)
  · rename_i hno
    exact ⟨hsame, hnames, fun h => absurd h hno⟩

/-- All names of the registered entries are noted. -/
theorem foldl_registerEntry (hash : String → UInt64) (indices : List ℕ) (m : ExprMap) :
    SameEntries m (indices.foldl (registerEntry hash) m) ∧
      ∀ k ∈ indices,
        (∀ x, (m.items.getD k {}).Names x →
          (nameHash hash x, k) ∈ (indices.foldl (registerEntry hash) m).occ) ∧
        ((m.items.getD k {}).HasSymbol → k ∈ (indices.foldl (registerEntry hash) m).symEntries) := by
  induction indices generalizing m with
  | nil => exact ⟨SameEntries.refl m, by simp⟩
  | cons k indices ih =>
    obtain ⟨hsame, hnames, hsyms⟩ := registerEntry_spec hash m k
    obtain ⟨hsame', hcover⟩ := ih (m.registerEntry hash k)
    refine ⟨hsame.trans hsame', fun k' hk' => ?_⟩
    rcases mem_cons.mp hk' with rfl | hk'
    · exact ⟨fun x hx => hsame'.occ _ (hnames x hx), fun h => hsame'.symEntries _ (hsyms h)⟩
    · have := hcover k' hk'
      rwa [hsame.items] at this

/-- Compaction keeps the live entries and covers them again. -/
theorem maybeCompact_spec (hok : TableOk hash m) :
    TableOk hash (m.maybeCompact hash) ∧ ∀ e, (m.maybeCompact hash).Live e ↔ m.Live e := by
  unfold maybeCompact
  simp only
  split
  · exact ⟨hok, fun e => Iff.rfl⟩
  -- the entries alive are registered again from an empty index
  · generalize hm₀ : ({ m with
      items := m.items.filter fun e => e.alive
      deadCount := 0
      exprValid := false
      occ := []
      symEntries := [] } : ExprMap) = m₀
    have hitems : m₀.items = m.items.filter fun e => e.alive := by rw [← hm₀]
    rw [← hitems]
    obtain ⟨hsame, hcover⟩ := foldl_registerEntry hash (range m₀.items.length) m₀
    have hlive : ∀ e, m₀.Live e ↔ m.Live e := by
      intro e
      unfold Live
      rw [hitems, mem_filter]
      exact ⟨fun h => ⟨h.1.1, h.2⟩, fun h => ⟨⟨h.1, h.2⟩, h.2⟩⟩
    refine ⟨⟨⟨fun k x hk hx => ?_, fun k x hk hx => ?_, fun k hk hx => ?_⟩, fun hv => ?_⟩, fun e => ?_⟩
    · rw [hsame.items] at hk hx
      obtain ⟨k', hk'⟩ := ((hlive _).mp (live_of_alive hk)).exists_index
      rw [← hk'] at hk hx
      rw [hsame.nameHashes, ← hm₀]
      exact hok.noted k' x hk hx
    · rw [hsame.items] at hk hx
      exact (hcover k (mem_range.mpr (lt_of_alive hk))).1 x hx
    · rw [hsame.items] at hk hx
      exact (hcover k (mem_range.mpr (lt_of_alive hk))).2 hx
    · rw [hsame.exprValid, ← hm₀] at hv
      cases hv
    · rw [← hlive e]
      unfold Live
      rw [hsame.items]

/-! ## Invalidation -/

/-- An entry that is seen to use a name has it. -/
theorem names_of_usesNamed {name : String} (hkind : kind = .temp ∨ kind = .symbol) (h : e.usesNamed kind name = true) :
    e.Names name := by
  have hvar : ∀ o : Operand, o.matchesNamed kind name = true → o.var = some name := by
    intro o ho
    unfold Operand.matchesNamed at ho
    rw [decide_eq_true_eq] at ho
    unfold Operand.var
    rw [if_pos (by rw [ho.1]; exact hkind), ho.2]
  unfold ExprEntry.usesNamed at h
  rw [Bool.or_eq_true, Bool.or_eq_true] at h
  rcases h with (h | h) | h
  · exact Or.inl (hvar _ h)
  · exact Or.inr (Or.inl (hvar _ h))
  · exact Or.inr (Or.inr (hvar _ h))

/-- A write to a variable leaves the live entries that do not use it. -/
theorem invalidateNamed_spec (hok : TableOk hash m) (hkind : kind = .temp ∨ kind = .symbol) (name : String) :
    TableOk hash (m.invalidateNamed hash kind name) ∧
      ∀ e, (m.invalidateNamed hash kind name).Live e ↔ m.Live e ∧ e.usesNamed kind name = false := by
  unfold invalidateNamed
  split
  · rename_i hfilter
    refine ⟨hok, fun e => ⟨fun h => ⟨h, ?_⟩, fun h => h.1⟩⟩
    by_contra huses
    rw [Bool.not_eq_false] at huses
    obtain ⟨k, hk⟩ := h.exists_index
    refine hfilter ?_
    unfold mayHoldName
    split
    · have := hok.noted k name (by rw [hk]; exact h.2) (by rw [hk]; exact names_of_usesNamed hkind huses)
      simpa using this
    · simpa using ne_nil_of_mem h.1
  · have hkill := killWhere_spec (fun e => e.usesNamed kind name) hok
      (if m.occReady then (m.occ.filter fun o => o.1 = nameHash hash name).map fun o => o.2
        else range m.items.length)
    obtain ⟨hok', hlive'⟩ := maybeCompact_spec hkill.1
    refine ⟨hok', fun e => (hlive' e).trans (live_killWhere _ hok fun k hk huses => ?_)⟩
    split
    · exact List.mem_map.mpr ⟨_, mem_filter.mpr
        ⟨hok.occurs k name hk (names_of_usesNamed hkind huses), by simp⟩, rfl⟩
    · exact mem_range.mpr (lt_of_alive hk)

/-- An entry that can be aliased has a symbol. -/
theorem hasSymbol_of_isAliasable {addrTaken : String → Bool} (h : e.isAliasable addrTaken = true) :
    e.HasSymbol := by
  have hkind : ∀ o : Operand, o.isAliasable addrTaken = true → o.kind = .symbol := by
    intro o ho
    unfold Operand.isAliasable at ho
    rw [decide_eq_true_eq] at ho
    exact ho.1
  unfold ExprEntry.isAliasable at h
  rw [Bool.or_eq_true, Bool.or_eq_true] at h
  rcases h with (h | h) | h
  · exact Or.inl (hkind _ h)
  · exact Or.inr (Or.inl (hkind _ h))
  · exact Or.inr (Or.inr (hkind _ h))

/-- A store leaves the live entries without an aliasable symbol. -/
theorem invalidateAfterStore_spec (hok : TableOk hash m) (addrTaken : String → Bool) :
    TableOk hash (m.invalidateAfterStore hash addrTaken) ∧
      ∀ e, (m.invalidateAfterStore hash addrTaken).Live e ↔
        m.Live e ∧ e.isAliasable addrTaken = false := by
  have hkill := killWhere_spec (fun e => e.isAliasable addrTaken) hok
    (if m.symReady then m.symEntries else range m.items.length)
  obtain ⟨hok', hlive'⟩ := maybeCompact_spec hkill.1
  refine ⟨hok', fun e => (hlive' e).trans (live_killWhere _ hok fun k hk halias => ?_)⟩
  split
  · exact hok.symbols k hk (hasSymbol_of_isAliasable halias)
  · exact mem_range.mpr (lt_of_alive hk)

/-! ## Storing -/

/-- Noting a name adds its hash and changes nothing else. -/
theorem noteName_spec (hash : String → UInt64) (m : ExprMap) (o : Operand) :
    (m.noteName hash o).items = m.items ∧ (m.noteName hash o).occ = m.occ ∧
      (m.noteName hash o).symEntries = m.symEntries ∧ (m.noteName hash o).exprValid = m.exprValid ∧
      (m.noteName hash o).exprSlots = m.exprSlots ∧
      (∀ h ∈ m.nameHashes, h ∈ (m.noteName hash o).nameHashes) ∧
      ∀ x, o.var = some x → nameHash hash x ∈ (m.noteName hash o).nameHashes := by
  unfold noteName
  split
  · rename_i y hy
    refine ⟨rfl, rfl, rfl, rfl, rfl, fun h hh => mem_cons_of_mem _ hh, fun x hx => ?_⟩
    obtain rfl := some.inj (hy.symm.trans hx)
    exact .head _
  · rename_i hnone
    refine ⟨rfl, rfl, rfl, rfl, rfl, fun h hh => hh, fun x hx => ?_⟩
    rw [hnone] at hx
    cases hx

/-- A new entry is the last one. -/
theorem getD_append_entry (items : List ExprEntry) (e : ExprEntry) (k : ℕ) :
    (items ++ [e]).getD k {} = if k = items.length then e else items.getD k {} := by
  rcases lt_trichotomy k items.length with hk | rfl | hk
  · rw [getD_append _ _ _ _ hk, if_neg (by omega)]
  · simp
  · rw [getD_eq_default _ _ (by simp; omega), if_neg (by omega), getD_eq_default _ _ (by omega)]

/-- An index stays one when an entry is appended and put in it. -/
theorem Indexed.append (h : Indexed hash items slots) (e : ExprEntry)
    (hroom : (items.length + 1 + 1) * 2 ≤ slots.length) :
    ∃ out, indexPut hash (items ++ [e]) slots items.length = some out ∧
      Indexed hash (items ++ [e]) out := by
  obtain ⟨t, ht, hzero, hput, hreach⟩ :=
    indexPut_spec hash (items ++ [e]) items.length h.free
  refine ⟨_, hput, ?_, ?_, fun k hk => ?_⟩
  · rw [length_append, length_singleton, length_set]
    exact hroom
  · rw [countP_set_free ht hzero (by omega), length_append, length_singleton]
    exact Nat.add_le_add_right h.taken 1
  · rw [length_set]
    by_cases hlast : k = items.length
    · rw [hlast]
      exact hreach
    · rw [getD_append_entry, if_neg hlast] at hk ⊢
      exact (h.reaches k hk).set ht hzero (by omega) (by omega)

theorem alive_exprEntry (i : Inst) : i.exprEntry.alive = true := by
  unfold Inst.exprEntry
  split <;> rfl

/-- An entry that is added is appended and covered. -/
theorem addEntry_spec (hash : String → UInt64) (m : ExprMap) (e : ExprEntry) :
    (m.addEntry hash e).items = m.items ++ [e] ∧
      (m.addEntry hash e).exprValid = m.exprValid ∧
      (m.addEntry hash e).exprSlots = m.exprSlots ∧
      (Covered hash m → Covered hash (m.addEntry hash e)) := by
  -- the three names are noted one after another, and what one notes the next keeps
  obtain ⟨-, ho₁, hs₁, hv₁, hx₁, hn₁, hl₁⟩ := noteName_spec hash m e.lhs
  obtain ⟨-, ho₂, hs₂, hv₂, hx₂, hn₂, hl₂⟩ := noteName_spec hash (m.noteName hash e.lhs) e.rhs
  obtain ⟨-, ho₃, hs₃, hv₃, hx₃, hn₃, hl₃⟩ :=
    noteName_spec hash ((m.noteName hash e.lhs).noteName hash e.rhs) e.value
  unfold addEntry
  generalize ((m.noteName hash e.lhs).noteName hash e.rhs).noteName hash e.value = noted at *
  have hnamed : ∀ x, e.Names x → nameHash hash x ∈ noted.nameHashes := by
    rintro x (hx | hx | hx)
    · exact hn₃ _ (hn₂ _ (hl₁ x hx))
    · exact hn₃ _ (hl₂ x hx)
    · exact hl₃ x hx
  obtain ⟨hsame, hcover, hsyms⟩ := registerEntry_spec hash
    { noted with items := m.items ++ [e] } m.items.length
  rw [getD_append_entry, if_pos rfl] at hcover hsyms
  refine ⟨hsame.items, hsame.exprValid.trans (hv₃.trans (hv₂.trans hv₁)),
    hsame.exprSlots.trans (hx₃.trans (hx₂.trans hx₁)), fun hold => ?_⟩
  refine ⟨fun k x hk hx => ?_, fun k x hk hx => ?_, fun k hk hx => ?_⟩ <;>
    rw [hsame.items, getD_append_entry] at hk hx <;> split at hk <;> rename_i hlast
  · rw [if_pos hlast] at hx
    rw [hsame.nameHashes]
    exact hnamed x hx
  · rw [if_neg hlast] at hx
    rw [hsame.nameHashes]
    exact hn₃ _ (hn₂ _ (hn₁ _ (hold.noted k x hk hx)))
  · rw [if_pos hlast] at hx
    rw [hlast]
    exact hcover x hx
  · rw [if_neg hlast] at hx
    refine hsame.occ _ ?_
    rw [ho₃, ho₂, ho₁]
    exact hold.occurs k x hk hx
  · rw [if_pos hlast] at hx
    rw [hlast]
    exact hsyms hx
  · rw [if_neg hlast] at hx
    refine hsame.symEntries _ ?_
    rw [hs₃, hs₂, hs₁]
    exact hold.symbols k hk hx

/-- An entry that matches nothing live is appended, unless the instruction overwrites an operand. -/
theorem storeValue_spec (hok : TableOk hash m)
    (hnew : ∀ e, m.Live e → e.matchesInst i = false) :
    ∃ m', m.storeValue hash i = some m' ∧ TableOk hash m' ∧
      ∀ e, m'.Live e ↔ m.Live e ∨
        (i.dest.equals i.lhs = false ∧ i.dest.equals i.rhs = false) ∧ e = i.exprEntry := by
  unfold storeValue
  -- `x = x op y` is not entered: its operand no longer has the value
  split
  · rename_i hself
    refine ⟨m, rfl, hok, fun e => ⟨Or.inl, ?_⟩⟩
    rintro (h | ⟨⟨hl, hr⟩, -⟩)
    · exact h
    · simp [hl, hr] at hself
  rename_i hself
  rw [not_or, Bool.not_eq_true, Bool.not_eq_true] at hself
  obtain ⟨m₁, r, hfind, hok₁, hitems₁, hfound, -⟩ := find_spec hok i
  rw [hfind, bind_some]
  -- no entry matches, by the caller's look before, so one is appended
  obtain rfl : r = none := by
    rcases r with _ | k
    · rfl
    · obtain ⟨hk, hmatch⟩ := hfound k rfl
      rw [hnew _ (live_of_alive hk)] at hmatch
      cases hmatch
  simp only
  obtain ⟨hitems, hvalid, hslots, hcovered⟩ := addEntry_spec hash m₁ i.exprEntry
  generalize m₁.addEntry hash i.exprEntry = app at *
  have hlive : ∀ slots valid e, ExprMap.Live { app with exprSlots := slots, exprValid := valid } e ↔
      m.Live e ∨ (i.dest.equals i.lhs = false ∧ i.dest.equals i.rhs = false) ∧ e = i.exprEntry := by
    intro slots valid e
    change e ∈ app.items ∧ _ ↔ _
    rw [hitems, hitems₁, mem_append, mem_singleton]
    constructor
    · rintro ⟨h | h, halive⟩
      · exact Or.inl ⟨h, halive⟩
      · exact Or.inr ⟨hself, h⟩
    · rintro (⟨h, halive⟩ | ⟨-, rfl⟩)
      · exact ⟨Or.inl h, halive⟩
      · exact ⟨Or.inr rfl, alive_exprEntry i⟩
  have hok' : ∀ slots valid, (valid = true → Indexed hash app.items slots) →
      TableOk hash { app with exprSlots := slots, exprValid := valid } := by
    intro slots valid hidx
    obtain ⟨hnoted, hoccurs, hsymbols⟩ := hcovered hok₁.toCovered
    exact ⟨⟨hnoted, hoccurs, hsymbols⟩, hidx⟩
  -- a stale index is left alone; a valid one takes the entry or becomes stale
  split
  · rename_i hinvalid
    exact ⟨app, rfl, hok' app.exprSlots app.exprValid (fun h => absurd h hinvalid),
      hlive app.exprSlots app.exprValid⟩
  · rename_i hisvalid
    rw [not_not] at hisvalid
    split
    · exact ⟨_, rfl, hok' app.exprSlots false (fun h => by cases h), hlive _ _⟩
    · rename_i hroom
      rw [hitems, length_append, length_singleton, hslots] at hroom
      have hidx := hok₁.indexed (hvalid ▸ hisvalid)
      obtain ⟨out, hput, hout⟩ := hidx.append i.exprEntry (by omega)
      rw [← hitems] at hput hout
      rw [hslots, show app.items.length - 1 = m₁.items.length by rw [hitems]; simp, hput,
        map_some]
      exact ⟨_, rfl, hok' out app.exprValid (fun _ => hout), hlive out app.exprValid⟩

end ExprMap

end Mettle.Ir

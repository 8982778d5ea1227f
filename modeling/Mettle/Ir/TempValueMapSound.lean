import Mettle.Ir.TempValueTable

/-!
# Maps with counts

The counts of the symbols are those of the values (`CountsOk`) after every operation, so the operations that
ask them first take out what they should, and a family of maps is a family of functions from names to values
as long as no map holds more names than an `int` counts.
-/

namespace Mettle.Ir

open Mettle.Lib List Option BitVec

variable {malloc : ℕ → Bool} {x s : String} {values values' : List Operand} {v : Operand}

/-! ## The counts -/

/-- How many values are a symbol. -/
def countSymbol (s : String) (values : List Operand) : ℕ := values.countP fun v => v.symbolName = some s

/-- The entry of a count, which is not there for zero. -/
def countOperand (n : ℕ) : Option Operand := if n = 0 then none else some (.ofInt (BitVec.ofNat 64 n))

/-- A table that counts the symbols of values. -/
structure CountsOk (counts : ValueTable) (values : List Operand) : Prop where
  table : TableOk counts
  exact : ∀ s, valueOf counts.items s = countOperand (countSymbol s values)

/-- One value more that names a symbol. -/
theorem countSymbol_cons (hv : v.symbolName = some x) :
    countSymbol s (v :: values) = countSymbol s values + if s = x then 1 else 0 := by
  unfold countSymbol
  rw [countP_cons, hv]
  congr 1
  by_cases h : s = x
  · simp [h]
  · simp [h, Ne.symm h]

/-- One value more that names none. -/
theorem countSymbol_cons_none (hv : v.symbolName = none) : countSymbol s (v :: values) = countSymbol s values := by
  unfold countSymbol
  rw [countP_cons, hv]
  simp

/-- There are at most as many as values. -/
theorem countSymbol_le (s : String) (values : List Operand) : countSymbol s values ≤ values.length :=
  countP_le_length

namespace CountsOk

variable {counts : ValueTable}

/-- The order of the values does not matter. -/
theorem perm (h : CountsOk counts values) (hperm : values.Perm values') : CountsOk counts values' where
  table := h.table
  exact s := by
    rw [h.exact s]
    unfold countSymbol
    rw [hperm.countP_eq]

/-- There are at most as many symbols as values. -/
theorem length_le (h : CountsOk counts values) : counts.items.length ≤ values.length := by
  have hsub : counts.items.map TempValueEntry.name ⊆ values.filterMap Operand.symbolName := by
    intro s hs
    obtain ⟨e, he, rfl⟩ := List.mem_map.mp hs
    have hvalue := (valueOf_eq_some h.table.names).mpr (show (⟨e.name, e.value⟩ : TempValueEntry) ∈ counts.items from he)
    rw [h.exact, countOperand] at hvalue
    split at hvalue
    · cases hvalue
    · next hne =>
      obtain ⟨v, hv, hsym⟩ := countP_pos_iff.mp (Nat.pos_of_ne_zero hne)
      exact mem_filterMap.mpr ⟨v, hv, of_decide_eq_true hsym⟩
  have hlength := (h.table.names.subperm hsub).length_le
  rw [length_map] at hlength
  exact hlength.trans (length_filterMap_le _ _)

/-- Nothing is counted in the beginning. -/
theorem empty : CountsOk {} [] where
  table := ⟨nodup_nil, fun e he => absurd he not_mem_nil, fun ix hix => by cases hix⟩
  exact _ := rfl

/-- The number that is read for a symbol. -/
theorem read (h : CountsOk counts values) (s : String) :
    ((valueOf counts.items s).map Operand.intValue).getD 0 = BitVec.ofNat 64 (countSymbol s values) := by
  rw [h.exact, countOperand]
  split
  · next hzero =>
    rw [hzero]
    rfl
  · rfl

/-- The number of a symbol changes. -/
theorem adjust (malloc : ℕ → Bool) {delta : BitVec 64} {n : ℕ} (hok : TableOk counts)
    (hlength : counts.items.length ≤ 2 ^ 31)
    (hnumber : ((valueOf counts.items x).map Operand.intValue).getD 0 + delta = BitVec.ofNat 64 n) (hn : n < 2 ^ 63) :
    ∃ counts', TempValueMap.vsymAdjust malloc counts x delta = some counts' ∧ TableOk counts' ∧
      ∀ s, valueOf counts'.items s = if s = x then countOperand n else valueOf counts.items s := by
  obtain ⟨t, ht, hitems, hok⟩ := lookup_spec malloc hok hlength x
  rw [← hitems] at hlength ⊢
  unfold TempValueMap.vsymAdjust
  rw [ht, bind_some]
  dsimp only
  rw [hnumber]
  rcases Nat.eq_zero_or_pos n with rfl | hpos
  · obtain ⟨t', o, rest, hremove, hok', hsplit, hperm, -⟩ := remove_spec malloc hok hlength x
    have hsplit' : Split t'.items x none rest := ⟨hperm, hsplit.fresh⟩
    rw [if_pos (by decide), hremove]
    refine ⟨t', rfl, hok', fun s => ?_⟩
    split
    · next hs => rw [hs, hsplit'.valueOf_self hok'.names]; rfl
    · next hs => rw [hsplit'.valueOf_ne hok'.names hs, ← hsplit.valueOf_ne hok.names hs]
  · have hsle : (BitVec.ofNat 64 n).sle 0 = false := by
      rw [sle_eq_decide, decide_eq_false_iff_not, toInt_eq_toNat_of_lt] <;> rw [toNat_ofNat]
      · simp
        omega
      · omega
    obtain ⟨t', old, rest, hset, hok', hsplit, hsplit'⟩ := set_spec (x := x) malloc hok hlength
      (show (Operand.ofInt (BitVec.ofNat 64 n)).clone = some _ from rfl)
    rw [hsle, if_neg Bool.false_ne_true, hset]
    refine ⟨t', rfl, hok', fun s => ?_⟩
    split
    · next hs =>
      rw [hs, hsplit'.valueOf_self hok'.names, countOperand, if_neg hpos.ne']
      rfl
    · next hs => rw [hsplit'.valueOf_ne hok'.names hs, ← hsplit.valueOf_ne hok.names hs]

/-- A symbol more. -/
theorem add (malloc : ℕ → Bool) (h : CountsOk counts values) (hn : values.length ≤ 2 ^ 31) (hv : v.symbolName = some x) :
    ∃ counts', TempValueMap.vsymAdjust malloc counts x 1 = some counts' ∧ CountsOk counts' (v :: values) := by
  have hcount := countSymbol_le x values
  have hnumber : BitVec.ofNat 64 (countSymbol x values) + 1 = BitVec.ofNat 64 (countSymbol x values + 1) :=
    (ofNat_add _ _).symm
  obtain ⟨counts', hadjust, hok', hvalues⟩ :=
    adjust (x := x) malloc h.table (h.length_le.trans hn) (by rw [h.read, hnumber]) (by omega)
  refine ⟨counts', hadjust, hok', fun s => ?_⟩
  rw [hvalues, countSymbol_cons hv, h.exact]
  split
  · next hs => rw [hs]
  · rfl

/-- A symbol less. -/
theorem sub (malloc : ℕ → Bool) (h : CountsOk counts (v :: values)) (hn : values.length < 2 ^ 31)
    (hv : v.symbolName = some x) :
    ∃ counts', TempValueMap.vsymAdjust malloc counts x (-1) = some counts' ∧ CountsOk counts' values := by
  have hcount := countSymbol_le x values
  have hnumber : BitVec.ofNat 64 (countSymbol x (v :: values)) + -1 = BitVec.ofNat 64 (countSymbol x values) := by
    rw [countSymbol_cons hv, if_pos rfl, ofNat_add, BitVec.add_assoc]
    exact BitVec.add_zero _
  obtain ⟨counts', hadjust, hok', hvalues⟩ :=
    adjust (x := x) malloc h.table (h.length_le.trans hn) (by rw [h.read, hnumber]) (by omega)
  refine ⟨counts', hadjust, hok', fun s => ?_⟩
  rw [hvalues, h.exact, countSymbol_cons hv]
  split
  · next hs => rw [hs]
  · rfl

end CountsOk

/-- The counts are those of values, if there are any. -/
def NotesOk (counts : Option ValueTable) (values : List Operand) : Prop :=
  ∀ c, counts = some c → CountsOk c values

/-- Nor does it for counts that may be missing. -/
theorem NotesOk.perm {counts : Option ValueTable} (h : NotesOk counts values) (hperm : values.Perm values') :
    NotesOk counts values' :=
  fun c hc => (h c hc).perm hperm

/-- A value without a symbol is not counted. -/
theorem CountsOk.cons_none {counts : ValueTable} (hv : v.symbolName = none) :
    CountsOk counts (v :: values) ↔ CountsOk counts values := by
  constructor
  · intro h
    exact ⟨h.table, fun s => by rw [h.exact, countSymbol_cons_none hv]⟩
  · intro h
    exact ⟨h.table, fun s => by rw [h.exact, countSymbol_cons_none hv]⟩

namespace TempValueMap

variable {m : TempValueMap}

/-- The map but for its counts. -/
structure SameTable (m m' : TempValueMap) : Prop where
  table : m'.table = m.table
  counted : m'.vsymCounts.isSome = m.vsymCounts.isSome

/-- Noting a value counts its symbol. -/
theorem vsymNoteValue_add (malloc : ℕ → Bool) (h : NotesOk m.vsymCounts values) (hn : values.length ≤ 2 ^ 31)
    (v : Operand) :
    ∃ m', m.vsymNoteValue malloc (some v) 1 = some m' ∧ SameTable m m' ∧ NotesOk m'.vsymCounts (v :: values) := by
  unfold vsymNoteValue
  cases hcounts : m.vsymCounts with
  | none => exact ⟨m, rfl, ⟨rfl, rfl⟩, fun c hc => by rw [hcounts] at hc; cases hc⟩
  | some counts =>
    rw [bind_some]
    cases hv : v.symbolName with
    | none =>
      refine ⟨m, rfl, ⟨rfl, rfl⟩, fun c hc => ?_⟩
      exact (CountsOk.cons_none hv).mpr (h c hc)
    | some s =>
      obtain ⟨counts', hadjust, hok⟩ := (h counts hcounts).add malloc hn hv
      dsimp only
      rw [hadjust, map_some]
      refine ⟨_, rfl, ⟨rfl, by rw [hcounts]; rfl⟩, fun c hc => ?_⟩
      cases hc
      exact hok

/-- Removing a value counts it off again. -/
theorem vsymNoteValue_sub (malloc : ℕ → Bool) (h : NotesOk m.vsymCounts (v :: values)) (hn : values.length < 2 ^ 31) :
    ∃ m', m.vsymNoteValue malloc (some v) (-1) = some m' ∧ SameTable m m' ∧ NotesOk m'.vsymCounts values := by
  unfold vsymNoteValue
  cases hcounts : m.vsymCounts with
  | none => exact ⟨m, rfl, ⟨rfl, rfl⟩, fun c hc => by rw [hcounts] at hc; cases hc⟩
  | some counts =>
    rw [bind_some]
    cases hv : v.symbolName with
    | none =>
      refine ⟨m, rfl, ⟨rfl, rfl⟩, fun c hc => ?_⟩
      exact (CountsOk.cons_none hv).mp (h c hc)
    | some s =>
      obtain ⟨counts', hadjust, hok⟩ := (h counts hcounts).sub malloc hn hv
      dsimp only
      rw [hadjust, map_some]
      refine ⟨_, rfl, ⟨rfl, by rw [hcounts]; rfl⟩, fun c hc => ?_⟩
      cases hc
      exact hok

/-- Without a value nothing is noted. -/
theorem vsymNoteValue_none (malloc : ℕ → Bool) (m : TempValueMap) (delta : BitVec 64) :
    m.vsymNoteValue malloc none delta = some m := by
  unfold vsymNoteValue
  cases m.vsymCounts <;> rfl

end TempValueMap

/-! ## Functions from names to values -/

/-- What a map is for. -/
abbrev ValueMap : Type := String → Option Operand

namespace ValueMap

variable (f g : ValueMap)

/-- Setting a name to a value that can be copied. -/
def set (x : String) (v : Operand) : ValueMap :=
  match v.clone with
  | none => f
  | some c => Function.update f x (some c)

/-- Removing a name. -/
def remove (x : String) : ValueMap := Function.update f x none

/-- Removing the names whose value is a symbol, or any symbol. -/
def removeSymbolValues (symbol : Option String) : ValueMap := fun x =>
  (f x).filter fun v => ¬ (v.symbolName.isSome ∧ (symbol = none ∨ symbol = v.symbolName))

/-- Removing the names that are in `g` or whose value is a symbol in `g`. -/
def invalidateAfterStore : ValueMap := fun x =>
  (f x).filter fun v => ¬ ((g x).isSome ∨ ∃ s, v.symbolName = some s ∧ (g s).isSome)

/-- Removing the names that have no equal value in `g`. -/
def intersectWith : ValueMap := fun x => (f x).filter fun v => (g x).any fun w => v.equals w

/-- No more names than an `int` counts. -/
def Small : Prop := {x | f x ≠ none}.ncard ≤ 2 ^ 31

end ValueMap

namespace TempValueMap

variable {m : TempValueMap}

/-- The values of the names. -/
def toFun (m : TempValueMap) : ValueMap := valueOf m.table.items

/-- The values of the entries. -/
def entryValues (m : TempValueMap) : List Operand := m.table.items.map TempValueEntry.value

/-- A map whose index is in step with its entries and whose counts, if there are any, are those of its values. -/
structure Ok (m : TempValueMap) : Prop where
  table : TableOk m.table
  counts : NotesOk m.vsymCounts m.entryValues

theorem length_entryValues : m.entryValues.length = m.table.items.length := length_map _

/-- The values when an entry is split off. -/
theorem values_split {items rest : List TempValueEntry} {o : Option Operand} (h : Split items x o rest) :
    (items.map TempValueEntry.value).Perm (o.toList ++ rest.map TempValueEntry.value) := by
  have hperm := h.perm.map TempValueEntry.value
  cases o with
  | none => exact hperm
  | some v => exact hperm

/-- The names of a map are those it has entries for. -/
theorem ncard_toFun (hok : m.Ok) : {x | m.toFun x ≠ none}.ncard = m.table.items.length := by
  have hset : {x | m.toFun x ≠ none} = ((m.table.items.map TempValueEntry.name).toFinset : Set String) := by
    ext x
    rw [Set.mem_ofPred_eq, coe_toFinset, Set.mem_ofPred_eq, toFun, ne_eq, valueOf_eq_none, List.mem_map]
    push Not
    rfl
  rw [hset, Set.ncard_coe_finset, toFinset_card_of_nodup hok.table.names, length_map]

theorem Ok.length_le (hok : m.Ok) (hsmall : m.toFun.Small) : m.table.items.length ≤ 2 ^ 31 :=
  ncard_toFun hok ▸ hsmall

theorem ok_empty : Ok {} where
  table := CountsOk.empty.table
  counts _ hc := by cases hc

/-! ## One operation -/

section

variable (malloc : ℕ → Bool) (hok : m.Ok) (hn : m.table.items.length ≤ 2 ^ 31) (x : String)
include hok hn

/-- A lookup answers as the function. -/
theorem lookup_ok :
    ∃ m', m.lookup malloc x = some (m', m.toFun x) ∧ m'.Ok ∧ m'.table.items = m.table.items ∧
      m'.vsymCounts = m.vsymCounts := by
  obtain ⟨t, ht, hitems, hok'⟩ := lookup_spec malloc hok.table hn x
  refine ⟨{ m with table := t }, ?_, ⟨hok', ?_⟩, hitems, rfl⟩
  · rw [lookup, ht, map_some]
    rfl
  · unfold entryValues
    rw [hitems]
    exact hok.counts

/-- Removing a name. The entries before its own stay where they are. -/
theorem remove_ok :
    ∃ m' o rest, m.remove malloc x = some m' ∧ m'.Ok ∧ Split m.table.items x o rest ∧ m'.table.items.Perm rest ∧
      ∀ k, slotOf m.table.items x = some k → ∀ j < k, m'.table.items.getD j default = m.table.items.getD j default := by
  obtain ⟨t, o, rest, hremove, hok', hsplit, hperm, hstay⟩ := remove_spec malloc hok.table hn x
  unfold remove
  rw [hremove, bind_some]
  dsimp only
  have hvalues := values_split hsplit
  have hkept : (t.items.map TempValueEntry.value).Perm (rest.map TempValueEntry.value) := hperm.map _
  cases o with
  | none =>
    rw [vsymNoteValue_none]
    refine ⟨_, none, rest, rfl, ⟨hok', ?_⟩, hsplit, hperm, hstay⟩
    exact hok.counts.perm (hvalues.trans hkept.symm)
  | some v =>
    have hlength := hvalues.length_eq
    rw [length_map, toList_some, singleton_append, length_cons, length_map] at hlength
    have hnotes : NotesOk ({ m with table := t } : TempValueMap).vsymCounts (v :: rest.map TempValueEntry.value) :=
      hok.counts.perm hvalues
    obtain ⟨m', hnote, hsame, hcounts⟩ := vsymNoteValue_sub malloc hnotes (by rw [length_map]; omega)
    have hitems : m'.table = t := hsame.table
    refine ⟨m', some v, rest, hnote, ⟨hitems ▸ hok', ?_⟩, hsplit, by rw [hitems]; exact hperm, by rw [hitems]; exact hstay⟩
    apply hcounts.perm
    rw [entryValues, hitems]
    exact hkept.symm

/-- Setting a name. -/
theorem set_ok (v : Operand) :
    ∃ m', m.set malloc x v = some (m', v.clone.isSome) ∧ m'.Ok ∧ m'.toFun = m.toFun.set x v ∧
      m'.table.items.length ≤ m.table.items.length + 1 := by
  unfold set ValueMap.set
  cases hv : v.clone with
  | none =>
    obtain ⟨t, ht, hitems, hok'⟩ := set_spec_none malloc hok.table hn (x := x) hv
    rw [ht, bind_some]
    dsimp only
    rw [vsymNoteValue_none, bind_some, vsymNoteValue_none]
    refine ⟨_, rfl, ⟨hok', ?_⟩, ?_, ?_⟩
    · unfold entryValues
      rw [hitems]
      exact hok.counts
    · unfold toFun
      rw [hitems]
    · dsimp only
      rw [hitems]
      exact Nat.le_succ _
  | some c =>
    obtain ⟨t, old, rest, ht, hok', hsplit, hsplit'⟩ := set_spec malloc hok.table hn (x := x) hv
    rw [ht, bind_some]
    dsimp only
    have hvalues := values_split hsplit
    have hvalues' := values_split hsplit'
    have hlength := hvalues.length_eq
    rw [length_map, length_append, length_map] at hlength
    -- The old value goes from the counts, if there was one.
    obtain ⟨m₁, hnote₁, hsame₁, hcounts₁⟩ : ∃ m₁,
        ({ m with table := t } : TempValueMap).vsymNoteValue malloc old (-1) = some m₁ ∧
          SameTable { m with table := t } m₁ ∧ NotesOk m₁.vsymCounts (rest.map TempValueEntry.value) := by
      cases old with
      | none => exact ⟨_, vsymNoteValue_none _ _ _, ⟨rfl, rfl⟩, hok.counts.perm hvalues⟩
      | some o =>
        rw [toList_some, length_singleton] at hlength
        exact vsymNoteValue_sub (m := { m with table := t }) malloc (hok.counts.perm hvalues)
          (by rw [length_map]; omega)
    obtain ⟨m₂, hnote₂, hsame₂, hcounts₂⟩ := vsymNoteValue_add malloc hcounts₁ (by rw [length_map]; omega) c
    have hitems : m₂.table = t := hsame₂.table.trans hsame₁.table
    rw [hnote₁, bind_some, hnote₂]
    refine ⟨m₂, rfl, ⟨hitems ▸ hok', ?_⟩, ?_, ?_⟩
    · apply hcounts₂.perm
      rw [entryValues, hitems]
      exact hvalues'.symm
    · funext y
      unfold toFun
      rw [hitems]
      by_cases hy : y = x
      · subst hy
        rw [Function.update_self, hsplit'.valueOf_self hok'.names]
      · rw [Function.update_of_ne hy, hsplit'.valueOf_ne hok'.names hy, ← hsplit.valueOf_ne hok.table.names hy]
    · have hlength' := hvalues'.length_eq
      rw [length_map, toList_some, singleton_append, length_cons, length_map] at hlength'
      rw [hitems]
      omega

end

end TempValueMap

end Mettle.Ir

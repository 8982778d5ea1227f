import Mettle.Ir.TempValueMap
import Mettle.Lib.OpenIndex

/-!
# The tables of names

Every operation on the entries keeps the index in step with them (`TableOk`), as long as the numbers of the
slots fit their words, and is described by what it does to the entry of its name (`Split`).
-/

namespace Mettle.Ir

open Mettle.Lib List Option

variable {malloc : ℕ → Bool} {t : ValueTable} {x y : String} {n k : ℕ}

/-! ## Walks -/

variable {ix : List ℕ} {e : ℕ}

/-- The mask of an index is a remainder. -/
theorem walk_eq_probe (hpow : ix.length = 2 ^ e) (stop : ℕ → Bool) (hash : ℕ) :
    walk ix stop hash = probe stop ix.length ix.length (hash % ix.length) := by
  have hfrom : ∀ fuel b, walkFrom stop (ix.length - 1) fuel b = probe stop ix.length fuel b := by
    intro fuel
    induction fuel with
    | zero => exact fun _ => rfl
    | succ fuel ih =>
      intro b
      rw [walkFrom, probe, ih, hpow, Nat.and_two_pow_sub_one_eq_mod]
  rw [walk, hfrom, hpow, Nat.and_two_pow_sub_one_eq_mod]

/-- Where the walk for an entry starts. -/
def entryHome (items : List TempValueEntry) (k : ℕ) : ℕ := tvmHash (items.getD k default).name

/-- The index of entries: a power of two with more than half of its slots free, in which a walk from the hash
of a name comes to its entry. -/
structure IndexOk (items : List TempValueEntry) (ix : List ℕ) (tombs : ℕ) : Prop where
  pow : ∃ e, ix.length = 2 ^ e
  room : (items.length + tombs) * 2 < ix.length
  index : OpenIndex tvmTomb (entryHome items) ix tombs (List.range items.length)

/-- A table whose names are different, whose values are copies and whose index, if there is one, is in step. -/
structure TableOk (t : ValueTable) : Prop where
  names : (t.items.map TempValueEntry.name).Nodup
  cloned : ∀ e ∈ t.items, e.value.clone = some e.value
  indexed : ∀ ix, t.ix = some ix → IndexOk t.items ix t.tombstones

theorem tvmTomb_ne_zero : tvmTomb ≠ 0 := by decide

/-- The walk that looks for an entry of a name. -/
theorem IndexOk.walk {items : List TempValueEntry} {tombs : ℕ} (h : IndexOk items ix tombs) (p : ℕ → Bool)
    (x : String) :
    ∃ b < ix.length, Ir.walk ix (stopsAt ix p) (tvmHash x) = some b ∧ OnWalk ix (tvmHash x % ix.length) b ∧
      ((ix.getD b 0 = 0 ∧ ∀ k < items.length, (items.getD k default).name = x → p k = false) ∨
        ∃ k < items.length, ix.getD b 0 = k + 1 ∧ p k = true) := by
  obtain ⟨e, hpow⟩ := h.pow
  obtain ⟨b, hb, hprobe, hwalk, hcase⟩ := h.index.find tvmTomb_ne_zero p (tvmHash x)
  refine ⟨b, hb, ?_, hwalk, ?_⟩
  · rw [walk_eq_probe hpow]
    exact hprobe
  · rcases hcase with ⟨hzero, hnone⟩ | ⟨k, hk, hword, hp⟩
    · exact Or.inl ⟨hzero, fun k hk hname => hnone k (mem_range.mpr hk) (by rw [entryHome, hname])⟩
    · exact Or.inr ⟨k, mem_range.mp hk, hword, hp⟩

/-! ## Indexing -/

/-- An entry goes into the index. -/
theorem indexInsertWith_spec {items : List TempValueEntry} {held : List ℕ} (hix : t.ix = some ix)
    (hpow : ix.length = 2 ^ e) (hindex : OpenIndex tvmTomb (entryHome items) ix t.tombstones held) (hk : k ∉ held)
    (hsmall : k + 1 < tvmTomb) (hroom : held.length + 1 + t.tombstones < ix.length) :
    ∃ ix' tombs, t.indexInsertWith (entryHome items k) k = some { t with ix := some ix', tombstones := tombs } ∧
      ix'.length = ix.length ∧ tombs ≤ t.tombstones ∧ OpenIndex tvmTomb (entryHome items) ix' tombs (k :: held) := by
  obtain ⟨b, hb, hprobe, hput⟩ := hindex.put tvmTomb_ne_zero hk hsmall hroom
  refine ⟨ix.set b (k + 1), if ix.getD b 0 = tvmTomb then t.tombstones - 1 else t.tombstones, ?_,
    length_set, by split <;> omega, hput⟩
  rw [ValueTable.indexInsertWith, hix, bind_some, walk_eq_probe hpow, hprobe, map_some,
    Nat.mod_eq_of_lt (lt_trans hsmall (by decide))]
  -- The guard of the decrement holds whenever a tombstone is taken.
  have hguard : (ix.getD b 0 = tvmTomb ∧ 0 < t.tombstones) ↔ ix.getD b 0 = tvmTomb := by
    apply and_iff_left_of_imp
    intro htomb
    rw [← hindex.count, count_pos_iff, ← htomb, getD_eq_getElem _ _ hb]
    exact getElem_mem hb
  rw [if_congr hguard rfl rfl]

/-- The doubling reaches what is wanted, and stays a power of two. -/
theorem wantedCapacity_spec (count fuel e : ℕ) (hfuel : count * 2 + 8 ≤ 2 ^ e + fuel) :
    count * 2 + 8 ≤ ValueTable.wantedCapacity count fuel (2 ^ e) ∧
      ∃ e', ValueTable.wantedCapacity count fuel (2 ^ e) = 2 ^ e' := by
  induction fuel generalizing e with
  | zero => exact ⟨by rw [ValueTable.wantedCapacity]; omega, e, rfl⟩
  | succ fuel ih =>
    rw [ValueTable.wantedCapacity]
    split
    · have hpos : 0 < 2 ^ e := Nat.two_pow_pos e
      exact ih (e + 1) (by rw [Nat.pow_succ]; omega)
    · exact ⟨by omega, e, rfl⟩

/-- The index that is built from the entries. -/
theorem foldlM_insert (hpow : ix.length = 2 ^ e) (hix : t.ix = some ix)
    (hindex : OpenIndex tvmTomb (entryHome t.items) ix t.tombstones []) (hn : n < tvmTomb)
    (hroom : n + t.tombstones < ix.length) :
    ∃ ix' tombs, (range n).foldlM
        (fun (s : ValueTable) i => s.indexInsertWith (tvmHash (t.items.getD i default).name) i) t =
          some { t with ix := some ix', tombstones := tombs } ∧
      ix'.length = ix.length ∧ tombs ≤ t.tombstones ∧
        OpenIndex tvmTomb (entryHome t.items) ix' tombs (range n) := by
  induction n with
  | zero => exact ⟨ix, t.tombstones, by rw [← hix]; rfl, rfl, le_rfl, hindex⟩
  | succ n ih =>
    obtain ⟨ix₁, tombs₁, hfold, hlength, hle, hindex₁⟩ := ih (by omega) (by omega)
    obtain ⟨ix₂, tombs₂, hinsert, hlength₂, hle₂, hindex₂⟩ :=
      indexInsertWith_spec (t := { t with ix := some ix₁, tombstones := tombs₁ }) rfl (hlength.trans hpow) hindex₁
        not_mem_range_self (by omega) (by rw [length_range, hlength]; dsimp only; omega)
    refine ⟨ix₂, tombs₂, ?_, hlength₂.trans hlength, hle₂.trans hle, hindex₂.perm ?_⟩
    · rw [range_succ, foldlM_append, hfold]
      simp only [bind_eq_bind, bind_some, foldlM_cons, foldlM_nil]
      rw [← entryHome, hinsert]
      rfl
    · rw [range_succ]
      exact @perm_append_comm _ [n] _

/-- The slots of an index, if there is one, are a power of two. -/
def ValueTable.PowIndex (t : ValueTable) : Prop := ∀ ix, t.ix = some ix → ∃ e, ix.length = 2 ^ e

/-- The index of a table in order has a power of two for its size. -/
theorem TableOk.powIndex (h : TableOk t) : t.PowIndex := fun ix hix => (h.indexed ix hix).pow

/-- Indexing again keeps the entries, and indexes all of them if there is memory. -/
theorem reindex_spec (malloc : ℕ → Bool) (hpow : t.PowIndex) (hn : t.items.length < tvmTomb) :
    ∃ t', t.reindex malloc = some t' ∧ t'.items = t.items ∧
      ∀ ix, t'.ix = some ix → IndexOk t.items ix t'.tombstones := by
  obtain ⟨hwant, e, he⟩ := wantedCapacity_spec t.items.length (t.items.length * 2 + 8) 5 (by omega)
  unfold ValueTable.reindex
  dsimp only
  generalize ValueTable.wantedCapacity t.items.length (t.items.length * 2 + 8) 32 = want at hwant he
  split
  · exact ⟨_, rfl, rfl, fun ix hix => (some_ne_none _ hix.symm).elim⟩
  · -- The capacity, kept or new.
    obtain ⟨capacity, hcapacity, hle, e', he'⟩ : ∃ capacity,
        (if (t.ix.getD []).length < want then want else (t.ix.getD []).length) = capacity ∧ want ≤ capacity ∧
          ∃ e', capacity = 2 ^ e' := by
      split
      · exact ⟨want, rfl, le_rfl, e, he⟩
      · next hle =>
        refine ⟨_, rfl, Nat.not_lt.mp hle, ?_⟩
        cases hix : t.ix with
        | none =>
          rw [hix] at hle
          exact absurd (show 0 < want by omega) hle
        | some ix => exact hpow ix hix
    rw [hcapacity]
    obtain ⟨ix, tombs, hfold, hlength, htombs, hindex⟩ := foldlM_insert (n := t.items.length)
      (t := { t with ix := some (replicate capacity 0), tombstones := 0 })
      (show (replicate capacity 0).length = 2 ^ _ by rw [length_replicate]; exact he') rfl
      (.empty (by omega) tvmTomb_ne_zero) hn (by rw [length_replicate]; dsimp only; omega)
    refine ⟨_, hfold, rfl, fun ix' hix' => ?_⟩
    cases hix'
    rw [length_replicate] at hlength
    dsimp only at htombs
    exact ⟨⟨e', hlength.trans he'⟩, by dsimp only; omega, hindex⟩

/-- So does making room, which keeps the table in order. -/
theorem indexEnsure_spec (malloc : ℕ → Bool) (hok : TableOk t) (hn : t.items.length < tvmTomb) :
    ∃ t', t.indexEnsure malloc = some t' ∧ t'.items = t.items ∧ TableOk t' := by
  obtain ⟨t', ht', hitems, hindex⟩ := reindex_spec malloc hok.powIndex hn
  have hok' : TableOk t' := ⟨hitems ▸ hok.names, hitems ▸ hok.cloned, hitems ▸ hindex⟩
  unfold ValueTable.indexEnsure
  split
  · exact ⟨t', ht', hitems, hok'⟩
  · split
    · exact ⟨t', ht', hitems, hok'⟩
    · exact ⟨t, rfl, rfl, hok⟩

/-! ## Lookups -/

/-- Where the entry of a name is. -/
def slotOf (items : List TempValueEntry) (x : String) : Option ℕ := items.findIdx? fun e => e.name = x

/-- The entry of a name is found. -/
theorem slotOf_eq_some {items : List TempValueEntry} (hnames : (items.map TempValueEntry.name).Nodup)
    (hk : k < items.length) (hname : (items.getD k default).name = x) : slotOf items x = some k := by
  rw [getD_eq_getElem _ _ hk] at hname
  rw [slotOf, findIdx?_eq_some_iff_getElem]
  refine ⟨hk, decide_eq_true hname, fun j hj hjx => ?_⟩
  have hlength : j < items.length := hj.trans hk
  have heq : (items.map TempValueEntry.name)[j]? = (items.map TempValueEntry.name)[k]? := by
    rw [List.getElem?_map, List.getElem?_map, List.getElem?_eq_getElem hlength, List.getElem?_eq_getElem hk,
      map_some, map_some, of_decide_eq_true hjx, hname]
  have := (List.getElem?_inj (by rwa [length_map]) hnames).mp heq
  omega

/-- Nothing is found under a name without an entry. -/
theorem slotOf_eq_none {items : List TempValueEntry} (h : ∀ k < items.length, (items.getD k default).name ≠ x) :
    slotOf items x = none := by
  rw [slotOf, findIdx?_eq_none_iff]
  intro e he
  obtain ⟨k, hk, rfl⟩ := mem_iff_getElem.mp he
  have := h k hk
  rw [getD_eq_getElem _ _ hk] at this
  exact decide_eq_false this

/-- What is found has the name. -/
theorem slotOf_spec {items : List TempValueEntry} (h : slotOf items x = some k) :
    k < items.length ∧ (items.getD k default).name = x := by
  rw [slotOf, findIdx?_eq_some_iff_getElem] at h
  obtain ⟨hk, hname, -⟩ := h
  exact ⟨hk, by rw [getD_eq_getElem _ _ hk]; exact of_decide_eq_true hname⟩

/-- A lookup answers with the slot of the name, as an `int`. -/
theorem find_eq (malloc : ℕ → Bool) (hok : TableOk t) (hn : t.items.length < tvmTomb) (x : String) :
    ∃ t', t.find malloc x = some (t', ((slotOf t.items x).map slotInt).getD (-1)) ∧ t'.items = t.items ∧
      TableOk t' := by
  unfold ValueTable.find
  split
  · next hzero =>
    rw [length_eq_zero_iff] at hzero
    refine ⟨t, ?_, rfl, hok⟩
    rw [hzero]
    rfl
  · obtain ⟨t', ht', hitems, hok'⟩ := indexEnsure_spec malloc hok hn
    refine ⟨t', ?_, hitems, hok'⟩
    rw [ht', bind_some, ← hitems]
    cases hix : t'.ix with
    | none =>
      dsimp only
      rw [slotOf]
      split
      · next heq => rw [heq]; rfl
      · next heq => rw [heq]; rfl
    | some ix =>
      obtain ⟨b, -, hwalk, -, hcase⟩ := (hok'.indexed ix hix).walk (t'.isAt x) x
      dsimp only
      rw [hwalk, map_some]
      rcases hcase with ⟨hzero, hnone⟩ | ⟨k, hk, hword, hat⟩
      · rw [if_pos hzero, slotOf_eq_none]
        · rfl
        · intro k hk hname
          have := hnone k hk hname
          rw [ValueTable.isAt, decide_eq_false_iff_not] at this
          exact this ⟨hk, hname⟩
      · rw [ValueTable.isAt, decide_eq_true_iff] at hat
        rw [if_neg (by omega), hword, Nat.add_sub_cancel, slotOf_eq_some hok'.names hk hat.2]
        rfl

/-- A place below `2 ^ 31` is no negative `int`. -/
theorem slotInt_of_lt (h : n < 2 ^ 31) : slotInt n = n := by
  unfold slotInt
  rw [BitVec.toInt_eq_toNat_of_lt] <;> rw [BitVec.toNat_ofNat] <;> omega

/-- A lookup in a table whose slots are `int`s. -/
theorem find_spec (malloc : ℕ → Bool) (hok : TableOk t) (hn : t.items.length ≤ 2 ^ 31) (x : String) :
    ∃ t', t.find malloc x = some (t', ((slotOf t.items x).map (Nat.cast : ℕ → ℤ)).getD (-1)) ∧ t'.items = t.items ∧
      TableOk t' := by
  obtain ⟨t', ht', hitems, hok'⟩ := find_eq malloc hok (by unfold tvmTomb; omega) x
  refine ⟨t', ?_, hitems, hok'⟩
  rw [ht']
  cases hslot : slotOf t.items x with
  | none => rfl
  | some k =>
    have hk := (slotOf_spec hslot).1
    rw [map_some, map_some, slotInt_of_lt (by omega)]

/-! ## Entries by name -/

/-- The value of a name. -/
def valueOf (items : List TempValueEntry) (x : String) : Option Operand :=
  (slotOf items x).map fun k => (items.getD k default).value

/-- The value of a name is that of its entry. -/
theorem valueOf_eq_some {items : List TempValueEntry} (hnames : (items.map TempValueEntry.name).Nodup) {v : Operand} :
    valueOf items x = some v ↔ ⟨x, v⟩ ∈ items := by
  constructor
  · intro h
    obtain ⟨k, hslot, hv⟩ := map_eq_some_iff.mp h
    obtain ⟨hk, hname⟩ := slotOf_spec hslot
    rw [← hname, ← hv, getD_eq_getElem _ _ hk]
    exact getElem_mem hk
  · intro h
    obtain ⟨k, hk, hitem⟩ := mem_iff_getElem.mp h
    rw [← getD_eq_getElem _ default hk] at hitem
    rw [valueOf, slotOf_eq_some hnames hk (by rw [hitem]), map_some, hitem]

/-- A name without an entry has none. -/
theorem valueOf_eq_none {items : List TempValueEntry} : valueOf items x = none ↔ ∀ e ∈ items, e.name ≠ x := by
  rw [valueOf, map_eq_none_iff, slotOf, findIdx?_eq_none_iff]
  simp only [decide_eq_false_iff_not, ne_eq]

/-- The entries are those of `rest`, which are of other names, and the one of the name if it has a value. -/
structure Split (items : List TempValueEntry) (x : String) (o : Option Operand) (rest : List TempValueEntry) : Prop where
  perm : items.Perm ((o.map (TempValueEntry.mk x)).toList ++ rest)
  fresh : ∀ e ∈ rest, e.name ≠ x

namespace Split

variable {items rest : List TempValueEntry} {o : Option Operand}

/-- The names are distinct exactly when those of the rest are. -/
theorem names_iff (h : Split items x o rest) :
    (items.map TempValueEntry.name).Nodup ↔ (rest.map TempValueEntry.name).Nodup := by
  rw [(h.perm.map TempValueEntry.name).nodup_iff]
  cases o with
  | none => rfl
  | some v =>
    rw [map_some, toList_some, singleton_append, map_cons, nodup_cons]
    apply and_iff_right
    intro hmem
    obtain ⟨e, he, heq⟩ := List.mem_map.mp hmem
    exact h.fresh e he heq

/-- The entries are the one of the name and the rest. -/
theorem mem_iff (h : Split items x o rest) {e : TempValueEntry} :
    e ∈ items ↔ (e.name = x ∧ o = some e.value) ∨ e ∈ rest := by
  rw [h.perm.mem_iff, mem_append, mem_toList, map_eq_some_iff]
  refine or_congr_left ⟨?_, ?_⟩
  · rintro ⟨v, rfl, rfl⟩
    exact ⟨rfl, rfl⟩
  · rintro ⟨rfl, rfl⟩
    exact ⟨e.value, rfl, rfl⟩

/-- The value of the name itself. -/
theorem valueOf_self (h : Split items x o rest) (hnames : (items.map TempValueEntry.name).Nodup) :
    valueOf items x = o := by
  cases o with
  | none =>
    rw [valueOf_eq_none]
    intro e he
    rcases h.mem_iff.mp he with ⟨-, hnone⟩ | hrest
    · cases hnone
    · exact h.fresh e hrest
  | some v => exact (valueOf_eq_some hnames).mpr (h.mem_iff.mpr (Or.inl ⟨rfl, rfl⟩))

/-- The value of another name is in the rest. -/
theorem valueOf_ne (h : Split items x o rest) (hnames : (items.map TempValueEntry.name).Nodup) (hy : y ≠ x) :
    valueOf items y = valueOf rest y := by
  apply ext
  intro v
  rw [valueOf_eq_some hnames, valueOf_eq_some (h.names_iff.mp hnames), h.mem_iff]
  exact or_iff_right fun heq => hy heq.1

/-- A name that is not found splits nothing off. -/
theorem of_slotOf_none (h : slotOf items x = none) : Split items x none items where
  perm := Perm.refl _
  fresh e he heq := by
    rw [slotOf, findIdx?_eq_none_iff] at h
    exact of_decide_eq_false (h e he) heq

/-- One that is found splits off its entry. -/
theorem of_slotOf (hnames : (items.map TempValueEntry.name).Nodup) (h : slotOf items x = some k) :
    Split items x (some (items.getD k default).value) (items.eraseIdx k) := by
  obtain ⟨hk, hname⟩ := slotOf_spec h
  rw [getD_eq_getElem _ _ hk] at hname ⊢
  have hperm : items.Perm (⟨x, items[k].value⟩ :: items.eraseIdx k) := by
    rw [← hname]
    exact (getElem_cons_eraseIdx_perm hk).symm
  refine ⟨hperm, fun e he heq => ?_⟩
  have hnodup := ((hperm.map TempValueEntry.name).nodup_iff.mp hnames)
  rw [map_cons, nodup_cons] at hnodup
  exact hnodup.1 (List.mem_map.mpr ⟨e, he, heq⟩)

end Split

variable {v c : Operand}

theorem Operand.clone_clone (h : v.clone = some c) : c.clone = some c := by
  unfold Operand.clone at h ⊢
  split at h
  all_goals first
    | next hkind =>
      split at h
      · next hname =>
        cases h
        rw [hkind]
        exact if_pos hname
      · cases h
    | next hkind =>
      cases h
      simp [hkind]

/-! ## Operations -/

/-- A lookup gives the value of the name and keeps the table in order, whatever memory there is. -/
theorem lookup_spec (malloc : ℕ → Bool) (hok : TableOk t) (hn : t.items.length ≤ 2 ^ 31) (x : String) :
    ∃ t', t.lookup malloc x = some (t', valueOf t.items x) ∧ t'.items = t.items ∧ TableOk t' := by
  obtain ⟨t', ht', hitems, hok'⟩ := find_spec malloc hok hn x
  refine ⟨t', ?_, hitems, hok'⟩
  rw [ValueTable.lookup, ht', map_some, valueOf]
  dsimp only
  rw [hitems]
  cases slotOf t.items x with
  | none => rfl
  | some k =>
    dsimp only [map_some, getD_some]
    rw [if_neg (by simp), Int.toNat_natCast]

theorem clear_spec (hok : TableOk t) : TableOk t.clear where
  names := nodup_nil
  cloned e he := absurd he not_mem_nil
  indexed ix hix := by
    obtain ⟨ix', hix', rfl⟩ := map_eq_some_iff.mp hix
    obtain ⟨e, hpow⟩ := (hok.indexed ix' hix').pow
    have hpos : 0 < ix'.length := hpow ▸ Nat.two_pow_pos e
    exact ⟨⟨e, by rw [length_replicate]; exact hpow⟩, by simpa [ValueTable.clear] using hpos,
      .empty hpos tvmTomb_ne_zero⟩

/-- A value takes the place of another one of its name. -/
theorem split_set {items : List TempValueEntry} (hnames : (items.map TempValueEntry.name).Nodup)
    (h : slotOf items x = some k) :
    Split (items.set k { items.getD k default with value := c }) x (some c) (items.eraseIdx k) := by
  obtain ⟨hk, hname⟩ := slotOf_spec h
  refine ⟨?_, (Split.of_slotOf hnames h).fresh⟩
  have hentry : ({ items.getD k default with value := c } : TempValueEntry) = ⟨x, c⟩ := by rw [← hname]
  rw [hentry]
  exact set_perm_cons_eraseIdx hk _

/-- The names of the entries decide where a walk starts. -/
theorem entryHome_congr {items items' : List TempValueEntry} (h : (items'.getD k default).name = (items.getD k default).name) :
    entryHome items' k = entryHome items k := by
  rw [entryHome, entryHome, h]

/-- The index only depends on the names. -/
theorem IndexOk.congr {items items' : List TempValueEntry} {ix : List ℕ} {tombs : ℕ} (h : IndexOk items ix tombs)
    (hlength : items'.length = items.length)
    (hnames : ∀ k < items.length, (items'.getD k default).name = (items.getD k default).name) :
    IndexOk items' ix tombs where
  pow := h.pow
  room := hlength ▸ h.room
  index := by
    rw [hlength]
    exact h.index.congr_home fun k hk => entryHome_congr (hnames k (mem_range.mp hk))

/-- A new entry at the end. -/
theorem append_spec (malloc : ℕ → Bool) (hok : TableOk t) (hn : t.items.length + 1 < tvmTomb)
    (entry : TempValueEntry) :
    ∃ t', (if t.ix.isSome ∧ ((t.items ++ [entry]).length + t.tombstones) * 2 < (t.ix.getD []).length then
          ({ t with items := t.items ++ [entry] } : ValueTable).indexInsertWith (tvmHash entry.name)
            ((t.items ++ [entry]).length - 1)
        else ({ t with items := t.items ++ [entry] } : ValueTable).reindex malloc) = some t' ∧
      t'.items = t.items ++ [entry] ∧
      ∀ ix, t'.ix = some ix → IndexOk (t.items ++ [entry]) ix t'.tombstones := by
  have hlength : (t.items ++ [entry]).length = t.items.length + 1 := length_append
  split
  -- the index has room and takes the new entry
  · next hcond =>
    obtain ⟨hsome, hroom⟩ := hcond
    obtain ⟨ix, hix⟩ := isSome_iff_exists.mp hsome
    obtain ⟨⟨e, hpow⟩, -, hindex⟩ := hok.indexed ix hix
    rw [hix, getD_some, hlength] at hroom
    have hindex' : OpenIndex tvmTomb (entryHome (t.items ++ [entry])) ix t.tombstones (range t.items.length) := by
      apply hindex.congr_home
      intro k hk
      rw [mem_range] at hk
      apply entryHome_congr
      rw [getD_append _ _ _ _ hk]
    obtain ⟨ix', tombs, hinsert, hlength', htombs, hput⟩ :=
      indexInsertWith_spec (t := { t with items := t.items ++ [entry] }) hix hpow hindex' not_mem_range_self hn
        (by rw [length_range]; dsimp only; omega)
    have hhome : entryHome (t.items ++ [entry]) t.items.length = tvmHash entry.name := by
      rw [entryHome, getD_append_right _ _ _ _ le_rfl, Nat.sub_self]
      rfl
    rw [hhome] at hinsert
    refine ⟨_, by rw [hlength, Nat.add_sub_cancel]; exact hinsert, rfl, fun ix'' hix'' => ?_⟩
    cases hix''
    refine ⟨⟨e, hlength'.trans hpow⟩, ?_, hput.perm ?_⟩
    · rw [hlength]
      dsimp only at htombs ⊢
      omega
    · rw [hlength, range_succ]
      exact @perm_append_comm _ [t.items.length] _
  · exact reindex_spec (t := { t with items := t.items ++ [entry] }) malloc
      (show ValueTable.PowIndex _ from hok.powIndex) (by rw [← hlength] at hn; exact hn)

/-- A value that cannot be cloned is not set. -/
theorem set_spec_none (malloc : ℕ → Bool) (hok : TableOk t) (hn : t.items.length ≤ 2 ^ 31) (hv : v.clone = none) :
    ∃ t', t.set malloc x v = some (t', {}) ∧ t'.items = t.items ∧ TableOk t' := by
  obtain ⟨t', ht', hitems, hok'⟩ := find_spec malloc hok hn x
  refine ⟨t', ?_, hitems, hok'⟩
  rw [ValueTable.set, ht', bind_some]
  rw [hv]

/-- What setting a name does. -/
theorem set_spec (malloc : ℕ → Bool) (hok : TableOk t) (hn : t.items.length ≤ 2 ^ 31) (hv : v.clone = some c) :
    ∃ t' old rest, t.set malloc x v = some (t', { replaced := old, value := some c }) ∧ TableOk t' ∧
      Split t.items x old rest ∧ Split t'.items x (some c) rest := by
  obtain ⟨t₁, ht₁, hitems, hok₁⟩ := find_spec malloc hok hn x
  rw [ValueTable.set, ht₁, bind_some]
  rw [hv]
  dsimp only
  rw [← hitems] at hn ⊢
  have hcloned : ∀ {items : List TempValueEntry} {rest}, Split items x (some c) rest → (∀ e ∈ rest, e ∈ t₁.items) →
      ∀ e ∈ items, e.value.clone = some e.value := by
    intro items rest hsplit hrest e he
    rcases hsplit.mem_iff.mp he with ⟨-, heq⟩ | hmem
    · cases heq
      exact Operand.clone_clone hv
    · exact hok₁.cloned e (hrest e hmem)
  -- a name that is held gets the value in its entry, another name gets an entry
  cases hslot : slotOf t₁.items x with
  | some k =>
    have hold := Split.of_slotOf hok₁.names hslot
    have hnew := split_set (c := c) hok₁.names hslot
    obtain ⟨hk, -⟩ := slotOf_spec hslot
    rw [map_some, getD_some, if_pos (Int.natCast_nonneg k)]
    rw [Int.toNat_natCast]
    refine ⟨_, _, _, rfl, ⟨?_, ?_, fun ix hix => ?_⟩, hold, hnew⟩
    · exact hnew.names_iff.mpr (hold.names_iff.mp hok₁.names)
    · exact hcloned hnew fun e he => mem_of_mem_eraseIdx he
    · apply (hok₁.indexed ix hix).congr length_set
      intro j hj
      rw [getD_eq_getElem _ _ (by rwa [length_set]), getElem_set, getD_eq_getElem _ _ hj]
      split
      · next heq =>
        subst heq
        rw [getD_eq_getElem _ _ hk]
      · rfl
  | none =>
    have hold := Split.of_slotOf_none hslot
    obtain ⟨t', ht', hitems', hindex⟩ := append_spec malloc hok₁ (by unfold tvmTomb; omega) ⟨x, c⟩
    have hnew : Split t'.items x (some c) t₁.items := ⟨hitems' ▸ perm_append_comm, hold.fresh⟩
    rw [ht', map_some]
    refine ⟨t', none, t₁.items, rfl, ⟨?_, ?_, hitems' ▸ hindex⟩, hold, hnew⟩
    · exact hnew.names_iff.mpr hok₁.names
    · exact hcloned hnew fun e he => he

/-- The word of an entry that goes becomes a tombstone. -/
theorem indexErase_spec (hok : TableOk t) (hk : k < t.items.length) (hname : (t.items.getD k default).name = x) :
    ∃ t', t.indexErase x k = some t' ∧ t'.items = t.items ∧ t'.PowIndex ∧
      ∀ ix, t'.ix = some ix → (t.items.length - 1 + t'.tombstones) * 2 < ix.length ∧
        OpenIndex tvmTomb (entryHome t.items) ix t'.tombstones ((range t.items.length).erase k) := by
  unfold ValueTable.indexErase
  cases hix : t.ix with
  | none => exact ⟨t, rfl, rfl, hok.powIndex, fun ix hix' => by rw [hix] at hix'; cases hix'⟩
  | some ix =>
    have hindex := hok.indexed ix hix
    obtain ⟨b, hb, hwalk, -, hcase⟩ := hindex.walk (fun s => decide (s = k)) x
    dsimp only
    rw [hwalk, map_some]
    rcases hcase with ⟨-, hnone⟩ | ⟨k', -, hword, hk'⟩
    · exact absurd rfl (of_decide_eq_false (hnone k hk hname))
    · rw [of_decide_eq_true hk'] at hword
      rw [if_neg (by omega)]
      have herase := hindex.index.erase tvmTomb_ne_zero (mem_range.mpr hk) hb hword
      obtain ⟨e, hpow⟩ := hindex.pow
      have hroom := hindex.room
      refine ⟨_, rfl, rfl, fun ix' hix' => ?_, fun ix' hix' => ?_⟩
      · cases hix'
        exact ⟨e, by rw [length_set, hpow]⟩
      · cases hix'
        refine ⟨?_, herase⟩
        rw [length_set]
        dsimp only
        omega

/-- The numbers that are left when the last one takes the place of another. -/
theorem perm_erase_last (hk : k < n) :
    (if k = n - 1 then (range n).erase k else k :: ((range n).erase k).erase (n - 1)).Perm
      (range (n - 1)) := by
  have hnodup := nodup_range (n := n)
  have hmem : ∀ j, j ∈ (range n).erase k ↔ j ≠ k ∧ j < n := by
    intro j
    rw [hnodup.mem_erase_iff, mem_range]
  split
  · rw [perm_ext_iff_of_nodup (hnodup.erase k) nodup_range]
    intro j
    rw [hmem, mem_range]
    omega
  · rw [perm_ext_iff_of_nodup _ nodup_range]
    · intro j
      rw [mem_cons, (hnodup.erase k).mem_erase_iff, hmem, mem_range]
      omega
    · rw [nodup_cons, (hnodup.erase k).mem_erase_iff, hmem]
      exact ⟨fun h => h.2.1 rfl, (hnodup.erase k).erase _⟩

/-- The last entry takes the place of another one. -/
theorem perm_take_set {items : List TempValueEntry} (hk : k < items.length) (hne : k ≠ items.length - 1) :
    ((items.set k (items.getD (items.length - 1) default)).take (items.length - 1)).Perm (items.eraseIdx k) := by
  have hlast : items.length - 1 < items.length := by omega
  have hset : (items.getD k default :: items.set k (items.getD (items.length - 1) default)).Perm
      (items.getD (items.length - 1) default :: items) := perm_set _ _ hk
  have hsplit : items.set k (items.getD (items.length - 1) default) =
      (items.set k (items.getD (items.length - 1) default)).take (items.length - 1) ++
        [items.getD (items.length - 1) default] := by
    conv_lhs => rw [← take_append_drop (items.length - 1) (items.set k _)]
    congr 1
    rw [drop_eq_getElem_cons (by rwa [length_set]), drop_eq_nil_of_le (by rw [length_set]; omega),
      getElem_set_ne hne, getD_eq_getElem _ _ hlast]
  rw [hsplit] at hset
  have herase := getElem_cons_eraseIdx_perm hk
  rw [← getD_eq_getElem _ default hk] at herase
  have hcons := hset.trans ((herase.symm).cons _)
  have hrot := (@perm_append_comm _ (items.getD k default ::
    (items.set k (items.getD (items.length - 1) default)).take (items.length - 1))
    [items.getD (items.length - 1) default]).symm
  exact (perm_cons _).mp ((perm_cons _).mp (hrot.trans (hcons)))

/-- The last entry gets the number of the one that goes. -/
theorem indexMove_spec {home home' : ℕ → ℕ} {held : List ℕ} {old new : ℕ} (hpow : t.PowIndex)
    (hindex : ∀ ix, t.ix = some ix → OpenIndex tvmTomb home ix t.tombstones held) (hold : old ∈ held) (hnew : new ∉ held)
    (hsmall : new + 1 < tvmTomb) (hname : home old = tvmHash x) (hhome : home' new = home old)
    (hother : ∀ k ∈ held, k ≠ old → home' k = home k) :
    ∃ t', t.indexMove x old new = some t' ∧ t'.items = t.items ∧ t'.PowIndex ∧ t'.tombstones = t.tombstones ∧
      ∀ ix', t'.ix = some ix' → OpenIndex tvmTomb home' ix' t.tombstones (new :: held.erase old) ∧
        ∃ ix, t.ix = some ix ∧ ix'.length = ix.length := by
  unfold ValueTable.indexMove
  cases hix : t.ix with
  | none => exact ⟨t, rfl, rfl, hpow, rfl, fun ix' hix' => by rw [hix] at hix'; cases hix'⟩
  | some ix =>
    obtain ⟨e, he⟩ := hpow ix hix
    obtain ⟨b, hb, hprobe, hwalk, hcase⟩ :=
      (hindex ix hix).find tvmTomb_ne_zero (fun s => decide (s = old)) (tvmHash x)
    have hstop : walk ix (stopsAt ix fun s => s = old) (tvmHash x) = some b := by
      rw [walk_eq_probe he]
      exact hprobe
    dsimp only
    rw [hstop, map_some]
    rcases hcase with ⟨-, hnone⟩ | ⟨k, -, hword, hk⟩
    · exact absurd rfl (of_decide_eq_false (hnone old hold hname))
    · rw [of_decide_eq_true hk] at hword
      rw [if_neg (by omega), Nat.mod_eq_of_lt (lt_trans hsmall (by decide))]
      rw [← hname] at hwalk
      refine ⟨_, rfl, rfl, fun ix' hix' => ?_, rfl, fun ix' hix' => ?_⟩
      · cases hix'
        exact ⟨e, by rw [length_set, he]⟩
      · cases hix'
        exact ⟨(hindex ix hix).renumber hold hnew hsmall hb hword hwalk hhome hother, ix, rfl, length_set⟩

/-- What removing a name does. The entries before its own stay where they are. -/
theorem remove_spec (malloc : ℕ → Bool) (hok : TableOk t) (hn : t.items.length ≤ 2 ^ 31) (x : String) :
    ∃ t' o rest, t.remove malloc x = some (t', o) ∧ TableOk t' ∧ Split t.items x o rest ∧ t'.items.Perm rest ∧
      ∀ k, slotOf t.items x = some k → ∀ j < k, t'.items.getD j default = t.items.getD j default := by
  obtain ⟨t₁, ht₁, hitems, hok₁⟩ := find_spec malloc hok hn x
  rw [ValueTable.remove, ht₁, bind_some]
  dsimp only
  rw [← hitems] at hn ⊢
  cases hslot : slotOf t₁.items x with
  | none =>
    exact ⟨t₁, none, t₁.items, rfl, hok₁, Split.of_slotOf_none hslot, Perm.refl _,
      fun k hk => (some_ne_none _ hk.symm).elim⟩
  | some k =>
    have hold := Split.of_slotOf hok₁.names hslot
    obtain ⟨hk, hname⟩ := slotOf_spec hslot
    rw [map_some, getD_some, if_neg (by omega), Int.toNat_natCast, hname]
    obtain ⟨t₂, ht₂, hitems₂, hpow₂, hindex₂⟩ := indexErase_spec hok₁ hk hname
    rw [ht₂, bind_some]
    have hnames := hold.names_iff.mp hok₁.names
    have hcloned : ∀ e ∈ t₁.items.eraseIdx k, e.value.clone = some e.value := fun e he =>
      hok₁.cloned e (mem_of_mem_eraseIdx he)
    have hrange := perm_erase_last hk
    by_cases hlast : k = t₁.items.length - 1
    · rw [if_pos hlast] at hrange ⊢
      have htake : t₁.items.take (t₁.items.length - 1) = t₁.items.eraseIdx k := by
        rw [hlast, eraseIdx_length_sub_one, dropLast_eq_take]
      have hstay : ∀ j < t₁.items.length - 1, (t₁.items.eraseIdx k).getD j default = t₁.items.getD j default := by
        intro j hj
        rw [← htake, getD_eq_getElem?_getD, List.getElem?_take_of_lt hj, ← getD_eq_getElem?_getD]
      rw [hitems₂, htake]
      refine ⟨_, _, _, rfl, ⟨hnames, hcloned, fun ix hix => ?_⟩, hold, Perm.refl _, ?_⟩
      swap
      · intro k' hk' j hj
        cases hk'
        exact hstay j (by omega)
      obtain ⟨hroom, hopen⟩ := hindex₂ ix hix
      have hlength : (t₁.items.eraseIdx k).length = t₁.items.length - 1 := length_eraseIdx_of_lt hk
      refine ⟨hpow₂ ix hix, by rw [hlength]; exact hroom, ?_⟩
      rw [hlength]
      apply (hopen.perm hrange).congr_home
      intro j hj
      rw [mem_range] at hj
      apply entryHome_congr
      rw [hstay j hj]
    · rw [if_neg hlast] at hrange ⊢
      have hperm := perm_take_set hk hlast
      generalize hmoved : t₁.items.getD (t₁.items.length - 1) default = moved at hperm ⊢
      generalize hkept : (t₁.items.set k moved).take (t₁.items.length - 1) = kept at hperm ⊢
      have hlength : kept.length = t₁.items.length - 1 := by
        rw [hperm.length_eq, length_eraseIdx_of_lt hk]
      -- The entries that stay are where they were, and the last one is where the other was.
      have hstay : ∀ j < t₁.items.length - 1, kept.getD j default =
          if j = k then moved else t₁.items.getD j default := by
        intro j hj
        rw [← hkept, getD_eq_getElem?_getD, List.getElem?_take_of_lt hj, ← getD_eq_getElem?_getD,
          getD_eq_getElem _ _ (by rw [length_set]; omega), getElem_set,
          getD_eq_getElem _ _ (show j < t₁.items.length by omega)]
        simp only [eq_comm]
      have hmem : t₁.items.length - 1 ∈ (range t₁.items.length).erase k := by
        rw [nodup_range.mem_erase_iff, mem_range]
        omega
      have hfresh : k ∉ (range t₁.items.length).erase k := fun hmem =>
        (nodup_range.mem_erase_iff.mp hmem).1 rfl
      have hsmall : k + 1 < tvmTomb := by
        unfold tvmTomb
        omega
      have hhome : entryHome t₁.items (t₁.items.length - 1) = tvmHash moved.name := by rw [entryHome, hmoved]
      have hhome' : entryHome kept k = entryHome t₁.items (t₁.items.length - 1) := by
        rw [hhome, entryHome, hstay k (by omega), if_pos rfl]
      have hother : ∀ j ∈ (range t₁.items.length).erase k, j ≠ t₁.items.length - 1 →
          entryHome kept j = entryHome t₁.items j := by
        intro j hj hne
        rw [nodup_range.mem_erase_iff, mem_range] at hj
        rw [entryHome, hstay j (by omega), if_neg hj.1]
        rfl
      obtain ⟨t₃, ht₃, hitems₃, hpow₃, htombs₃, hindex₃⟩ :=
        indexMove_spec (t := { t₂ with items := t₂.items.set k moved }) (x := moved.name)
          (show ValueTable.PowIndex _ from hpow₂) (fun ix hix => (hindex₂ ix hix).2) hmem hfresh hsmall hhome hhome'
          hother
      rw [ht₃, map_some]
      rw [hitems₃, hitems₂, hkept]
      refine ⟨_, _, _, rfl, ⟨?_, ?_, fun ix hix => ?_⟩, hold, hperm, ?_⟩
      · exact (hperm.map TempValueEntry.name).nodup_iff.mpr hnames
      · exact fun e he => hcloned e (hperm.mem_iff.mp he)
      · obtain ⟨hopen, ix₂, hix₂, hsame⟩ := hindex₃ ix hix
        obtain ⟨hroom, -⟩ := hindex₂ ix₂ hix₂
        refine ⟨hpow₃ ix hix, ?_, ?_⟩
        · dsimp only
          rw [hlength, htombs₃, hsame]
          exact hroom
        · dsimp only
          rw [hlength, htombs₃]
          exact hopen.perm hrange
      · intro k' hk' j hj
        cases hk'
        rw [hstay j (by omega), if_neg (by omega)]

end Mettle.Ir

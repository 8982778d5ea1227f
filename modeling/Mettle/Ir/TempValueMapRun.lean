import Mettle.Ir.TempValueMapSound

/-!
# Runs over maps

The operations that go through all entries, and any sequence of operations on a family of maps. Slots are
returned as `int`, so a map of more than `2 ^ 31` names has entries that no lookup finds.
-/

open List Option Function

namespace Mettle.Ir

open Mettle.Lib

variable {malloc : ℕ → Bool} {m m' : TempValueMap} {x : String}

namespace TempValueMap

/-! ## Entries that are kept -/

/-- The value of a name among the entries that are kept. -/
theorem valueOf_filter {items : List TempValueEntry} (hnames : (items.map TempValueEntry.name).Nodup)
    (q : TempValueEntry → Bool) (x : String) :
    valueOf (items.filter q) x = (valueOf items x).filter fun v => q ⟨x, v⟩ := by
  have hnames' : ((items.filter q).map TempValueEntry.name).Nodup :=
    hnames.sublist ((filter_sublist).map _)
  apply ext
  intro v
  rw [valueOf_eq_some hnames', mem_filter, filter_eq_some_iff, valueOf_eq_some hnames]

variable {gone : TempValueEntry → Bool} {todo : List TempValueEntry}

/-- The loop keeps the entries that pass, and takes the others out of the counts. -/
theorem keepEntries_spec {σ : Type} (malloc : ℕ → Bool) {test : σ → TempValueEntry → Option (σ × Bool)}
    {Inv : σ → Prop} (htest : ∀ other e, Inv other → ∃ other', test other e = some (other', gone e) ∧ Inv other')
    (kept : List TempValueEntry) {other : σ} (hinv : Inv other)
    (hcounts : NotesOk m.vsymCounts ((kept ++ todo).map TempValueEntry.value)) (hn : (kept ++ todo).length ≤ 2 ^ 31) :
    ∃ m' other', keepEntries malloc test todo kept m other =
        some (kept ++ todo.filter fun e => !gone e, m', other') ∧ m'.table = m.table ∧ Inv other' ∧
      NotesOk m'.vsymCounts ((kept ++ todo.filter fun e => !gone e).map TempValueEntry.value) := by
  induction todo generalizing kept m other with
  | nil => exact ⟨m, other, by rw [keepEntries, filter_nil, append_nil], rfl, hinv, hcounts⟩
  | cons e todo ih =>
    obtain ⟨other', hother, hinv'⟩ := htest other e hinv
    rw [keepEntries, hother, bind_some]
    dsimp only
    cases hgone : gone e with
    | true =>
      have hperm : ((kept ++ e :: todo).map TempValueEntry.value).Perm
          (e.value :: (kept ++ todo).map TempValueEntry.value) := by
        exact perm_middle.map _
      rw [length_append, length_cons] at hn
      obtain ⟨m₁, hnote, hsame, hcounts₁⟩ := vsymNoteValue_sub malloc (hcounts.perm hperm)
        (by rw [length_map, length_append]; omega)
      obtain ⟨m₂, other₂, hrest, htable, hinv₂, hcounts₂⟩ :=
        ih _ hinv' hcounts₁ (by rw [length_append]; omega)
      rw [if_pos rfl, hnote, bind_some, hrest, filter_cons_of_neg (by simp [hgone])]
      exact ⟨m₂, other₂, rfl, htable.trans hsame.table, hinv₂, hcounts₂⟩
    | false =>
      rw [if_neg Bool.false_ne_true, filter_cons_of_pos (by simp [hgone])]
      have happend : kept ++ e :: todo = kept ++ [e] ++ todo := by rw [append_assoc, singleton_append]
      rw [happend] at hcounts hn
      obtain ⟨m₂, other₂, hrest, htable, hinv₂, hcounts₂⟩ := ih _ hinv' hcounts hn
      rw [append_assoc, singleton_append] at hrest hcounts₂
      exact ⟨m₂, other₂, hrest, htable, hinv₂, hcounts₂⟩

/-- The entries that pass are left. -/
theorem compact_ok {σ : Type} (malloc : ℕ → Bool) {test : σ → TempValueEntry → Option (σ × Bool)} (Inv : σ → Prop)
    (htest : ∀ other e, Inv other → ∃ other', test other e = some (other', gone e) ∧ Inv other') (hok : m.Ok)
    (hn : m.table.items.length ≤ 2 ^ 31) {other : σ} (hinv : Inv other) :
    ∃ m' other', m.compact malloc test other = some (m', other') ∧ m'.Ok ∧ Inv other' ∧
      m'.toFun = fun x => (m.toFun x).filter fun v => !gone ⟨x, v⟩ := by
  obtain ⟨m₁, other', hkeep, htable, hinv', hcounts⟩ :=
    keepEntries_spec malloc htest [] hinv hok.counts hn
  rw [nil_append] at hkeep hcounts
  have hvalue : ∀ x, valueOf (m.table.items.filter fun e => !gone e) x =
      (m.toFun x).filter fun v => !gone ⟨x, v⟩ := fun x => valueOf_filter hok.table.names _ x
  have hsub : (m.table.items.filter fun e => !gone e).Sublist m.table.items := filter_sublist
  unfold compact
  rw [hkeep, bind_some]
  dsimp only
  rw [htable]
  -- entries went, so the index is built again; or none did, and all stands
  split
  · have hlength := hsub.length_le
    obtain ⟨t, ht, hitems, hindex⟩ := reindex_spec malloc
      (t := { m.table with items := m.table.items.filter fun e => !gone e })
      (show ValueTable.PowIndex _ from hok.table.powIndex) (by dsimp only; unfold tvmTomb; omega)
    rw [ht, map_some]
    refine ⟨_, other', rfl, ⟨⟨?_, ?_, hitems ▸ hindex⟩, ?_⟩, hinv', ?_⟩
    · rw [hitems]
      exact hok.table.names.sublist (hsub.map _)
    · rw [hitems]
      exact fun e he => hok.table.cloned e (hsub.subset he)
    · rw [entryValues, hitems]
      exact hcounts
    · funext x
      rw [toFun, hitems]
      exact hvalue x
  · next hsame =>
    have hall : (m.table.items.filter fun e => !gone e) = m.table.items :=
      hsub.eq_of_length (Decidable.not_not.mp hsame).symm
    refine ⟨m₁, other', rfl, ⟨htable ▸ hok.table, ?_⟩, hinv', ?_⟩
    · rw [entryValues, htable, ← hall]
      exact hcounts
    · funext x
      rw [← hvalue, hall, toFun, htable]

/-! ## The operations on all entries -/

/-- The counts are there when they are asked for, and right. -/
theorem vsymEnsure_ok (malloc : ℕ → Bool) (hok : m.Ok) (hn : m.table.items.length ≤ 2 ^ 31) :
    ∃ m' counts, m.vsymEnsure malloc = some m' ∧ m'.Ok ∧ m'.table = m.table ∧ m'.vsymCounts = some counts := by
  have hfold : ∀ (todo : List TempValueEntry) (m₀ : TempValueMap) (values : List Operand),
      NotesOk m₀.vsymCounts values → values.length + todo.length ≤ 2 ^ 31 →
      ∃ m', todo.foldlM (fun (m : TempValueMap) e => m.vsymNoteValue malloc (some e.value) 1) m₀ = some m' ∧
        SameTable m₀ m' ∧ NotesOk m'.vsymCounts ((todo.map TempValueEntry.value).reverse ++ values) := by
    intro todo
    induction todo with
    | nil => exact fun m₀ values h _ => ⟨m₀, rfl, ⟨rfl, rfl⟩, h⟩
    | cons e todo ih =>
      intro m₀ values h hlength
      rw [length_cons] at hlength
      obtain ⟨m₁, hnote, hsame, hcounts⟩ := vsymNoteValue_add malloc h (by omega) e.value
      obtain ⟨m₂, hrest, hsame₂, hcounts₂⟩ := ih m₁ (e.value :: values) hcounts (by rw [length_cons]; omega)
      refine ⟨m₂, ?_, ⟨hsame₂.table.trans hsame.table, hsame₂.counted.trans hsame.counted⟩, ?_⟩
      · rw [foldlM_cons, hnote]
        exact hrest
      · rw [map_cons, reverse_cons, append_assoc, singleton_append]
        exact hcounts₂
  unfold vsymEnsure
  split
  · next hsome =>
    obtain ⟨counts, hcounts⟩ := isSome_iff_exists.mp hsome
    exact ⟨m, counts, rfl, hok, rfl, hcounts⟩
  · have hempty : NotesOk ({ m with vsymCounts := some {} } : TempValueMap).vsymCounts [] := by
      intro c hc
      cases hc
      exact CountsOk.empty
    obtain ⟨m', hm', hsame, hcounts⟩ := hfold m.table.items _ [] hempty (by rw [length_nil]; omega)
    have htable : m'.table = m.table := hsame.table
    obtain ⟨counts, hsome⟩ := isSome_iff_exists.mp hsame.counted
    refine ⟨m', counts, hm', ⟨htable ▸ hok.table, hcounts.perm ?_⟩, htable, hsome⟩
    rw [append_nil, entryValues, htable]
    exact reverse_perm _

/-- What is removed: the values that name the symbol, or any. -/
theorem isGone_eq (symbol : Option String) (v : Operand) :
    isGone symbol v = decide (v.symbolName.isSome ∧ (symbol = none ∨ symbol = v.symbolName)) := by
  unfold isGone
  cases v.symbolName with
  | none => simp
  | some s => simp

/-- Removing values of a symbol does to the map what it does to the function. -/
theorem removeSymbolValues_ok (malloc : ℕ → Bool) (hok : m.Ok) (hn : m.table.items.length ≤ 2 ^ 31)
    (symbol : Option String) :
    ∃ m', m.removeSymbolValues malloc symbol = some m' ∧ m'.Ok ∧ m'.toFun = m.toFun.removeSymbolValues symbol := by
  -- The loop over the entries.
  have hloop : ∀ m₀ : TempValueMap, m₀.Ok → m₀.table.items = m.table.items →
      ∃ m', ((m₀.compact malloc (fun (_ : Unit) e => some ((), isGone symbol e.value)) ()).map Prod.fst) = some m' ∧
        m'.Ok ∧ m'.toFun = m.toFun.removeSymbolValues symbol := by
    intro m₀ hok₀ hitems
    have htest : ∀ (other : Unit) (e : TempValueEntry), True → ∃ other', (some ((), isGone symbol e.value) : Option (Unit × Bool)) =
        some (other', isGone symbol e.value) ∧ True := fun other e _ => ⟨(), rfl, trivial⟩
    obtain ⟨m', other, hm', hok', -, hfun⟩ :=
      compact_ok malloc (fun _ => True) htest hok₀ (hitems ▸ hn) (by trivial)
    refine ⟨m', by rw [hm', map_some], hok', ?_⟩
    rw [hfun]
    funext x
    unfold ValueMap.removeSymbolValues toFun
    rw [hitems]
    congr 1
    funext v
    rw [isGone_eq, decide_not]
  unfold removeSymbolValues
  cases symbol with
  | none => exact hloop m hok rfl
  | some s =>
    obtain ⟨m₁, counts, hensure, hok₁, htable, hcounts⟩ := vsymEnsure_ok malloc hok hn
    have hexact := hok₁.counts counts hcounts
    have hlength : counts.items.length ≤ 2 ^ 31 := by
      have hle := hexact.length_le
      rw [length_entryValues, htable] at hle
      exact hle.trans hn
    obtain ⟨counts', hlookup, hitems', hok'⟩ := lookup_spec malloc hexact.table hlength s
    have hok₂ : Ok { m₁ with vsymCounts := some counts' } := by
      refine ⟨hok₁.table, fun c hc => ?_⟩
      cases hc
      exact ⟨hok', fun y => by rw [hitems']; exact hexact.exact y⟩
    dsimp only
    rw [hensure, bind_some, hcounts, getD_some, hlookup, bind_some]
    split
    · next hnone =>
      refine ⟨_, rfl, hok₂, ?_⟩
      -- No value is the symbol, so no entry goes.
      have hzero : countSymbol s m₁.entryValues = 0 := by
        rw [hexact.exact, countOperand] at hnone
        by_contra hne
        rw [if_neg hne] at hnone
        cases hnone
      funext x
      unfold ValueMap.removeSymbolValues toFun
      rw [htable]
      cases hvalue : valueOf m.table.items x with
      | none => rfl
      | some v =>
        have hmem : v ∈ m₁.entryValues := by
          rw [entryValues, htable]
          exact List.mem_map.mpr ⟨_, (valueOf_eq_some hok.table.names).mp hvalue, rfl⟩
        have hnot : v.symbolName ≠ some s := by
          intro heq
          exact (countP_eq_zero.mp hzero v hmem) (decide_eq_true heq)
        rw [filter_some, if_pos]
        rw [decide_eq_true_iff]
        rintro ⟨-, hcase⟩
        rcases hcase with hcase | hcase
        · cases hcase
        · exact hnot hcase.symm
    · exact hloop _ hok₂ (by dsimp only; rw [htable])

/-- A map with the same entries. -/
structure Same (m m' : TempValueMap) : Prop where
  ok : m'.Ok
  items : m'.table.items = m.table.items

theorem Same.toFun (h : Same m m') : m'.toFun = m.toFun := by
  unfold TempValueMap.toFun
  rw [h.items]

/-- A map that may be `NULL` with the same entries. -/
def SameIn (map map' : Option TempValueMap) : Prop := Option.Rel Same map map'

/-- The values of a map that may be `NULL`. -/
def toFunIn (map : Option TempValueMap) : ValueMap := fun x => map.bind fun m => m.toFun x

/-- A lookup answers as the function, in a map that may be missing. -/
theorem lookupIn_ok (malloc : ℕ → Bool) {map map' : Option TempValueMap} (hsame : SameIn map map')
    (hn : ∀ m, map = some m → m.table.items.length ≤ 2 ^ 31) (x : String) :
    ∃ map'', lookupIn malloc map' x = some (map'', toFunIn map x) ∧ SameIn map map'' := by
  cases hsame with
  | none => exact ⟨none, rfl, .none⟩
  | some hsame =>
    obtain ⟨m'', hlookup, hok, hitems, -⟩ := lookup_ok malloc hsame.ok (hsame.items ▸ hn _ rfl) x
    refine ⟨some m'', ?_, .some ⟨hok, hitems.trans hsame.items⟩⟩
    unfold lookupIn
    dsimp only
    rw [hlookup, map_some, hsame.toFun]
    rfl

/-- A store removes what it may change, in the map as in the function. -/
theorem invalidateAfterStore_ok (malloc : ℕ → Bool) (hok : m.Ok) (hn : m.table.items.length ≤ 2 ^ 31)
    {addrTaken : Option TempValueMap} (haddr : ∀ a, addrTaken = some a → a.Ok ∧ a.table.items.length ≤ 2 ^ 31) :
    ∃ m' addrTaken', m.invalidateAfterStore malloc addrTaken = some (m', addrTaken') ∧ m'.Ok ∧
      SameIn addrTaken addrTaken' ∧ m'.toFun = m.toFun.invalidateAfterStore (toFunIn addrTaken) := by
  have hself : SameIn addrTaken addrTaken := by
    cases addrTaken with
    | none => exact .none
    | some a => exact .some ⟨(haddr a rfl).1, rfl⟩
  have htest : ∀ other e, SameIn addrTaken other → ∃ other',
      isStored malloc other e = some (other', decide ((toFunIn addrTaken e.name).isSome ∨
        ∃ s, e.value.symbolName = some s ∧ (toFunIn addrTaken s).isSome)) ∧ SameIn addrTaken other' := by
    intro other e hsame
    obtain ⟨other₁, hfound, hsame₁⟩ := lookupIn_ok malloc hsame (fun a ha => (haddr a ha).2) e.name
    rw [isStored, hfound, bind_some]
    dsimp only
    by_cases hname : (toFunIn addrTaken e.name).isSome = true
    · rw [if_pos hname]
      exact ⟨other₁, by rw [decide_eq_true (Or.inl hname)], hsame₁⟩
    cases hsym : e.value.symbolName with
    | none => exact ⟨other₁, by simp [hname], hsame₁⟩
    | some s =>
      obtain ⟨other₂, hfound₂, hsame₂⟩ := lookupIn_ok malloc hsame₁ (fun a ha => (haddr a ha).2) s
      refine ⟨other₂, ?_, hsame₂⟩
      dsimp only
      rw [hfound₂, map_some]
      simp [hname]
  obtain ⟨m', addrTaken', hm', hok', hsame', hfun⟩ := compact_ok malloc (SameIn addrTaken) htest hok hn hself
  refine ⟨m', addrTaken', hm', hok', hsame', ?_⟩
  rw [hfun]
  funext x
  congr 1
  funext v
  rw [decide_not]

/-- A cleared map is the empty function. -/
theorem clear_ok (hok : m.Ok) : m.clear.Ok ∧ m.clear.toFun = (fun _ => none) ∧ m.clear.table.items = [] := by
  refine ⟨⟨clear_spec hok.table, fun c hc => ?_⟩, rfl, rfl⟩
  obtain ⟨counts, hcounts, rfl⟩ := map_eq_some_iff.mp hc
  exact ⟨clear_spec (hok.counts counts hcounts).table, fun _ => rfl⟩

/-- Setting the names of entries one after the other. -/
theorem setAll_ok (malloc : ℕ → Bool) (hok : m.Ok) (hnames : (todo.map TempValueEntry.name).Nodup)
    (hcloned : ∀ e ∈ todo, e.value.clone = some e.value) (hn : m.table.items.length + todo.length ≤ 2 ^ 31) :
    ∃ m', setAll malloc todo m = some m' ∧ m'.Ok ∧ ∀ x, m'.toFun x = (valueOf todo x).or (m.toFun x) := by
  induction todo generalizing m with
  | nil => exact ⟨m, rfl, hok, fun x => rfl⟩
  | cons e todo ih =>
    rw [length_cons] at hn
    rw [map_cons, nodup_cons] at hnames
    have hvalue := hcloned e mem_cons_self
    obtain ⟨m₁, hset, hok₁, hfun, hlength⟩ := set_ok malloc hok (by omega) e.name e.value
    obtain ⟨m₂, hrest, hok₂, hfun₂⟩ := ih hok₁ hnames.2 (fun e he => hcloned e (.tail _ he)) (by omega)
    rw [setAll, hset, bind_some]
    dsimp only
    rw [hvalue, isSome_some, if_pos rfl]
    refine ⟨m₂, hrest, hok₂, fun x => ?_⟩
    rw [hfun₂, hfun, ValueMap.set, hvalue]
    dsimp only
    have hsplit : Split (e :: todo) e.name (some e.value) todo :=
      ⟨Perm.refl _, fun e' he' heq => hnames.1 (List.mem_map.mpr ⟨e', he', heq⟩)⟩
    have hnames' : ((e :: todo).map TempValueEntry.name).Nodup := nodup_cons.mpr hnames
    by_cases hx : x = e.name
    · subst hx
      have hnone : valueOf todo e.name = none := valueOf_eq_none.mpr hsplit.fresh
      rw [hnone, none_or, update_self, hsplit.valueOf_self hnames', some_or]
    · rw [update_of_ne hx, hsplit.valueOf_ne hnames' hx]

/-- A clone is the same function. -/
theorem clone_ok (malloc : ℕ → Bool) {src : TempValueMap} (hok : m.Ok) (hsrc : src.Ok)
    (hn : src.table.items.length ≤ 2 ^ 31) :
    ∃ m', m.clone malloc src = some m' ∧ m'.Ok ∧ m'.toFun = src.toFun := by
  obtain ⟨hok', hfun, hitems⟩ := clear_ok hok
  obtain ⟨m', hm', hok'', hfun'⟩ := setAll_ok malloc hok' hsrc.table.names hsrc.table.cloned
    (by rw [hitems, length_nil]; omega)
  refine ⟨m', hm', hok'', ?_⟩
  funext x
  rw [hfun', hfun, or_none]
  rfl

/-- An entry that has an equal value in another map. -/
def hasEqual (g : ValueMap) (e : TempValueEntry) : Bool := (g e.name).any fun v => e.value.equals v

/-- The loop leaves the entries that have an equal value; those before `i` do. -/
theorem intersectFrom_ok (malloc : ℕ → Bool) {fuel i : ℕ} {other other₀ : TempValueMap} (hok : m.Ok)
    (hn : m.table.items.length ≤ 2 ^ 31) (hother : Same other₀ other) (hn' : other₀.table.items.length ≤ 2 ^ 31)
    (hfuel : m.table.items.length < i + fuel) (hi : i ≤ m.table.items.length)
    (hbefore : ∀ j < i, hasEqual other₀.toFun (m.table.items.getD j default) = true) :
    ∃ m' other', intersectFrom malloc fuel i m other = some (m', other') ∧ m'.Ok ∧ Same other₀ other' ∧
      m'.table.items.Perm (m.table.items.filter (hasEqual other₀.toFun)) := by
  -- on the entries of `m` not yet compared
  induction fuel generalizing i m other with
  | zero => omega
  | succ fuel ih =>
    rw [intersectFrom]
    split
    · next hle =>
      refine ⟨m, other, rfl, hok, hother, ?_⟩
      rw [filter_eq_self.mpr]
      intro e he
      obtain ⟨j, hj, rfl⟩ := mem_iff_getElem.mp he
      rw [← getD_eq_getElem _ default hj]
      exact hbefore j (by omega)
    · next hlt =>
      rw [Nat.not_le] at hlt
      obtain ⟨other₁, hlookup, hok₁, hitems₁, -⟩ :=
        lookup_ok malloc hother.ok (hother.items ▸ hn') (m.table.items.getD i default).name
      have hother₁ : Same other₀ other₁ := ⟨hok₁, hitems₁.trans hother.items⟩
      dsimp only
      rw [hlookup, bind_some, hother.toFun]
      cases hequal : hasEqual other₀.toFun (m.table.items.getD i default) with
      | true =>
        have hequal' := hequal
        unfold hasEqual at hequal'
        rw [if_pos hequal']
        apply ih hok hn hother₁ (by omega) hlt
        intro j hj
        rcases Nat.lt_succ_iff_lt_or_eq.mp hj with hj | rfl
        · exact hbefore j hj
        · exact hequal
      | false =>
        have hequal' := hequal
        unfold hasEqual at hequal'
        rw [if_neg (by rw [hequal']; exact Bool.false_ne_true)]
        obtain ⟨m₁, o, rest, hremove, hokm, hsplit, hperm, hstay⟩ :=
          remove_ok malloc hok hn (m.table.items.getD i default).name
        have hslot : slotOf m.table.items (m.table.items.getD i default).name = some i :=
          slotOf_eq_some hok.table.names hlt rfl
        have ho : o = some (m.table.items.getD i default).value := by
          rw [← hsplit.valueOf_self hok.table.names, valueOf, hslot, map_some]
        have hitems : m.table.items.Perm (m.table.items.getD i default :: m₁.table.items) := by
          have hcons := hsplit.perm
          rw [ho, map_some, toList_some, singleton_append] at hcons
          exact hcons.trans (hperm.symm.cons _)
        have hlength := hitems.length_eq
        rw [length_cons] at hlength
        rw [hremove, bind_some]
        obtain ⟨m', other', hrest, hok', hother', hfilter⟩ := ih (i := i) hokm (by omega) hother₁ (by omega) (by omega)
          (fun j hj => by rw [hstay i hslot j hj]; exact hbefore j hj)
        refine ⟨m', other', hrest, hok', hother', hfilter.trans ?_⟩
        have hcons := hitems.filter (hasEqual other₀.toFun)
        rw [filter_cons_of_neg (by rw [hequal]; exact Bool.false_ne_true)] at hcons
        exact hcons.symm

/-- What two maps have in common, in the maps as in the functions. -/
theorem intersectWith_ok (malloc : ℕ → Bool) {other : TempValueMap} (hok : m.Ok) (hn : m.table.items.length ≤ 2 ^ 31)
    (hother : other.Ok) (hn' : other.table.items.length ≤ 2 ^ 31) :
    ∃ m' other', m.intersectWith malloc other = some (m', other') ∧ m'.Ok ∧ Same other other' ∧
      m'.toFun = m.toFun.intersectWith other.toFun := by
  obtain ⟨m', other', hm', hok', hsame, hperm⟩ := @intersectFrom_ok m malloc
    (m.table.items.length + 1) 0 _ _ hok hn ⟨hother, rfl⟩ hn' (by omega) (Nat.zero_le _)
    fun j hj => absurd hj (Nat.not_lt_zero j)
  refine ⟨m', other', hm', hok', hsame, ?_⟩
  funext x
  have hnames : ((m.table.items.filter (hasEqual other.toFun)).map TempValueEntry.name).Nodup :=
    hok.table.names.sublist (filter_sublist.map _)
  have hvalue : m'.toFun x = valueOf (m.table.items.filter (hasEqual other.toFun)) x := by
    apply ext
    intro v
    rw [toFun, valueOf_eq_some hok'.table.names, valueOf_eq_some hnames, hperm.mem_iff]
  rw [hvalue, valueOf_filter hok.table.names]
  rfl

end TempValueMap

/-! ## Runs -/

/-- An operation on a map of a family. The numbers are those of the other map it reads. -/
inductive MapOp where
  | lookup (name : String)
  | set (name : String) (value : Operand)
  | remove (name : String)
  | removeSymbolValues (symbol : Option String)
  | invalidateAfterStore (addrTaken : Option ℕ)
  | clear
  | clone (src : ℕ)
  | intersectWith (other : ℕ)
  deriving DecidableEq, Repr

/-- The other map. -/
def MapOp.other : MapOp → Option ℕ
  | .invalidateAfterStore addrTaken => addrTaken
  | .clone src => some src
  | .intersectWith other => some other
  | _ => none

/-- An operation without a second map has none. -/
theorem MapOp.other_ne {op : MapOp} (h : op.other = none) (i : ℕ) : op.other ≠ some i := by
  rw [h]
  exact (some_ne_none i).symm

/-- One step of a run: an operation on a map, which reads another map than that one. -/
structure MapStep where
  target : ℕ
  op : MapOp
  malloc : ℕ → Bool
  distinct : op.other ≠ some target

namespace MapStep

variable (s : MapStep)

/-- A map that was read takes its place again. -/
def putBack (maps : ℕ → TempValueMap) (i : Option ℕ) (map : Option TempValueMap) : ℕ → TempValueMap :=
  match i, map with
  | some i, some m => Function.update maps i m
  | _, _ => maps

/-- The step. -/
def run (maps : ℕ → TempValueMap) : Option (ℕ → TempValueMap) :=
  let m := maps s.target
  match s.op with
  | .lookup name => (m.lookup s.malloc name).map fun r => Function.update maps s.target r.1
  | .set name value => (m.set s.malloc name value).map fun r => Function.update maps s.target r.1
  | .remove name => (m.remove s.malloc name).map fun m => Function.update maps s.target m
  | .removeSymbolValues symbol =>
    (m.removeSymbolValues s.malloc symbol).map fun m => Function.update maps s.target m
  | .invalidateAfterStore addrTaken =>
    (m.invalidateAfterStore s.malloc (addrTaken.map maps)).map fun r =>
      Function.update (putBack maps addrTaken r.2) s.target r.1
  | .clear => some (Function.update maps s.target m.clear)
  | .clone src => (m.clone s.malloc (maps src)).map fun m => Function.update maps s.target m
  | .intersectWith other =>
    (m.intersectWith s.malloc (maps other)).map fun r =>
      Function.update (putBack maps (some other) (some r.2)) s.target r.1

/-- What the step is for. -/
def effect (f : ℕ → ValueMap) : ValueMap :=
  match s.op with
  | .lookup _ => f s.target
  | .set name value => (f s.target).set name value
  | .remove name => (f s.target).remove name
  | .removeSymbolValues symbol => (f s.target).removeSymbolValues symbol
  | .invalidateAfterStore addrTaken => (f s.target).invalidateAfterStore fun x => addrTaken.bind fun i => f i x
  | .clear => fun _ => none
  | .clone src => f src
  | .intersectWith other => (f s.target).intersectWith (f other)

end MapStep

/-- The maps after a run from empty ones. -/
def runMaps (steps : List MapStep) : Option (ℕ → TempValueMap) :=
  steps.foldlM (fun maps s => s.run maps) fun _ => {}

/-- What the maps are for after a run. -/
def runEffects (steps : List MapStep) : ℕ → ValueMap :=
  steps.foldl (fun f s => Function.update f s.target (s.effect f)) fun _ _ => none

/-- The maps hold the functions. -/
def Hold (maps : ℕ → TempValueMap) (f : ℕ → ValueMap) : Prop := ∀ i, (maps i).Ok ∧ (maps i).toFun = f i

namespace Hold

variable {maps : ℕ → TempValueMap} {f : ℕ → ValueMap} {i : ℕ}

/-- One map of several after an operation on it. -/
theorem update (h : Hold maps f) {g : ValueMap} (hok : m.Ok) (hfun : m.toFun = g) :
    Hold (Function.update maps i m) (Function.update f i g) := by
  intro j
  by_cases hj : j = i
  · subst hj
    rw [update_self, update_self]
    exact ⟨hok, hfun⟩
  · rw [update_of_ne hj, update_of_ne hj]
    exact h j

/-- Putting back a map that is the same. -/
theorem putBack (h : Hold maps f) (hsame : (maps i).Same m) : Hold (MapStep.putBack maps (some i) (some m)) f := by
  have hupdate := h.update (i := i) hsame.ok (hsame.toFun.trans (h i).2)
  rwa [update_eq_self] at hupdate

end Hold

/-- One step does to the maps what it is for. -/
theorem MapStep.run_spec (s : MapStep) {maps : ℕ → TempValueMap} {f : ℕ → ValueMap} (h : Hold maps f)
    (hsmall : ∀ i, (f i).Small) :
    ∃ maps', s.run maps = some maps' ∧ Hold maps' (Function.update f s.target (s.effect f)) := by
  have hlength : ∀ i, (maps i).table.items.length ≤ 2 ^ 31 := fun i =>
    (h i).1.length_le ((h i).2 ▸ hsmall i)
  obtain ⟨hok, hfun⟩ := h s.target
  have hn := hlength s.target
  unfold run effect
  -- one case per operation, each from the lemma of its function
  cases hop : s.op with
  -- a lookup may build the index, and changes no value
  | lookup name =>
    obtain ⟨m, hm, hok', hitems, -⟩ := TempValueMap.lookup_ok s.malloc hok hn name
    dsimp only
    rw [hm]
    exact ⟨_, rfl, h.update hok' ((TempValueMap.Same.mk hok' hitems).toFun.trans hfun)⟩
  | set name value =>
    obtain ⟨m, hm, hok', hfun', -⟩ := TempValueMap.set_ok s.malloc hok hn name value
    dsimp only
    rw [hm]
    exact ⟨_, rfl, h.update hok' (by rw [hfun', hfun])⟩
  | remove name =>
    obtain ⟨m, o, rest, hm, hok', hsplit, hperm, -⟩ := TempValueMap.remove_ok s.malloc hok hn name
    dsimp only
    rw [hm]
    refine ⟨_, rfl, h.update hok' ?_⟩
    have hsplit' : Split m.table.items name none rest := ⟨hperm, hsplit.fresh⟩
    funext x
    rw [← hfun]
    unfold TempValueMap.toFun ValueMap.remove
    by_cases hx : x = name
    · subst hx
      rw [update_self, hsplit'.valueOf_self hok'.table.names]
    · rw [update_of_ne hx, hsplit'.valueOf_ne hok'.table.names hx, hsplit.valueOf_ne hok.table.names hx]
  | removeSymbolValues symbol =>
    obtain ⟨m, hm, hok', hfun'⟩ := TempValueMap.removeSymbolValues_ok s.malloc hok hn symbol
    dsimp only
    rw [hm]
    exact ⟨_, rfl, h.update hok' (by rw [hfun', hfun])⟩
  | invalidateAfterStore addrTaken =>
    have haddr : ∀ a, addrTaken.map maps = some a → a.Ok ∧ a.table.items.length ≤ 2 ^ 31 := by
      intro a ha
      obtain ⟨i, -, rfl⟩ := map_eq_some_iff.mp ha
      exact ⟨(h i).1, hlength i⟩
    obtain ⟨m, addrTaken', hm, hok', hsame, hfun'⟩ := TempValueMap.invalidateAfterStore_ok s.malloc hok hn haddr
    dsimp only
    rw [hm]
    -- the table of taken addresses is only searched, so putting it back changes no value
    have hback : Hold (putBack maps addrTaken addrTaken') f := by
      cases addrTaken with
      | none =>
        cases hsame
        exact h
      | some i =>
        cases hsame with
        | some hsame => exact h.putBack hsame
    refine ⟨_, rfl, hback.update hok' ?_⟩
    rw [hfun', hfun]
    congr 1
    funext x
    cases addrTaken with
    | none => rfl
    | some i => exact congrFun (h i).2 x
  | clear =>
    obtain ⟨hok', hfun', -⟩ := TempValueMap.clear_ok hok
    exact ⟨_, rfl, h.update hok' hfun'⟩
  | clone src =>
    obtain ⟨m, hm, hok', hfun'⟩ := TempValueMap.clone_ok s.malloc hok (h src).1 (hlength src)
    dsimp only
    rw [hm]
    exact ⟨_, rfl, h.update hok' (hfun'.trans (h src).2)⟩
  | intersectWith other =>
    obtain ⟨m, other', hm, hok', hsame, hfun'⟩ :=
      TempValueMap.intersectWith_ok s.malloc hok hn (h other).1 (hlength other)
    dsimp only
    rw [hm]
    exact ⟨_, rfl, (h.putBack hsame).update hok' (by rw [hfun', hfun, (h other).2])⟩

/-- A run does to the maps what it is for, if no map on the way holds too many names. -/
theorem runMaps_hold {steps : List MapStep} (hsmall : ∀ k < steps.length, ∀ i, (runEffects (steps.take k) i).Small) :
    ∃ maps, runMaps steps = some maps ∧ Hold maps (runEffects steps) := by
  induction steps using reverseRecOn with
  | nil => exact ⟨_, rfl, fun i => ⟨TempValueMap.ok_empty, rfl⟩⟩
  | append_singleton steps s ih =>
    have hbefore : ∀ k ≤ steps.length, (steps ++ [s]).take k = steps.take k := fun k hk => take_append_of_le_length hk
    have hlength : (steps ++ [s]).length = steps.length + 1 := length_append
    obtain ⟨maps, hmaps, hhold⟩ := ih fun k hk i => hbefore k hk.le ▸ hsmall k (by omega) i
    have hlast := hsmall steps.length (by omega)
    rw [hbefore _ le_rfl, take_length] at hlast
    obtain ⟨maps', hrun, hhold'⟩ := s.run_spec hhold hlast
    refine ⟨maps', ?_, ?_⟩
    · rw [runMaps, foldlM_append, ← runMaps, hmaps]
      simpa using hrun
    · rw [runEffects, foldl_append]
      exact hhold'

/-- A step adds one name at most. -/
theorem MapStep.ncard_effect_le (s : MapStep) {f : ℕ → ValueMap} {n : ℕ}
    (h : ∀ i, {x | f i x ≠ none}.Finite ∧ {x | f i x ≠ none}.ncard ≤ n) :
    {x | s.effect f x ≠ none}.Finite ∧ {x | s.effect f x ≠ none}.ncard ≤ n + 1 := by
  obtain ⟨hfinite, hle⟩ := h s.target
  have hsub : ∀ {g : ValueMap}, (∀ x, f s.target x = none → g x = none) →
      {x | g x ≠ none}.Finite ∧ {x | g x ≠ none}.ncard ≤ n + 1 := by
    intro g hg
    have hsubset : {x | g x ≠ none} ⊆ {x | f s.target x ≠ none} := fun x hx hnone => hx (hg x hnone)
    exact ⟨hfinite.subset hsubset, (Set.ncard_le_ncard hsubset hfinite).trans (hle.trans (Nat.le_succ n))⟩
  unfold effect
  cases s.op with
  | lookup name => exact hsub fun x hx => hx
  | set name value =>
    -- only `set` may add a name, and a clone takes those of another map
    have hsubset : {x | (f s.target).set name value x ≠ none} ⊆ insert name {x | f s.target x ≠ none} := by
      intro x hx
      by_cases hname : x = name
      · exact Or.inl hname
      · refine Or.inr fun hnone => hx ?_
        unfold ValueMap.set
        cases value.clone with
        | none => exact hnone
        | some c => exact (update_of_ne hname _ _).trans hnone
    exact ⟨(hfinite.insert name).subset hsubset, (Set.ncard_le_ncard hsubset (hfinite.insert name)).trans
      ((Set.ncard_insert_le _ _).trans (Nat.succ_le_succ hle))⟩
  | remove name =>
    apply hsub
    intro x hx
    dsimp only
    unfold ValueMap.remove
    by_cases hname : x = name
    · rw [hname, update_self]
    · rw [update_of_ne hname, hx]
  | removeSymbolValues symbol => exact hsub fun x hx => by dsimp only; rw [ValueMap.removeSymbolValues, hx]; rfl
  | invalidateAfterStore addrTaken => exact hsub fun x hx => by dsimp only; rw [ValueMap.invalidateAfterStore, hx]; rfl
  | clear => exact hsub fun x _ => rfl
  | clone src => exact ⟨(h src).1, (h src).2.trans (Nat.le_succ n)⟩
  | intersectWith other => exact hsub fun x hx => by dsimp only; rw [ValueMap.intersectWith, hx]; rfl

/-- A run of so many steps is small. -/
theorem runEffects_small {steps : List MapStep} (h : steps.length ≤ 2 ^ 31) (i : ℕ) : (runEffects steps i).Small := by
  suffices hncard : ∀ i, {x | runEffects steps i x ≠ none}.Finite ∧ {x | runEffects steps i x ≠ none}.ncard ≤ steps.length
    from (hncard i).2.trans h
  clear h
  induction steps using reverseRecOn with
  | nil => exact fun i => by simp [runEffects]
  | append_singleton steps s ih =>
    intro i
    have hstep := s.ncard_effect_le ih
    rw [runEffects, foldl_append, length_append, length_singleton]
    change {x | Function.update (runEffects steps) s.target (s.effect (runEffects steps)) i x ≠ none}.Finite ∧
      {x | Function.update (runEffects steps) s.target (s.effect (runEffects steps)) i x ≠ none}.ncard ≤ steps.length + 1
    by_cases hi : i = s.target
    · subst hi
      rw [update_self]
      exact hstep
    · rw [update_of_ne hi]
      exact ⟨(ih i).1, (ih i).2.trans (Nat.le_succ _)⟩

/-- A step that sets a name in one map. -/
def setStep (name : String) (value : Operand) : MapStep where
  target := 0
  op := .set name value
  malloc _ := true
  distinct := MapOp.other_ne rfl 0

/-- A run in which a symbol is removed that is the value of a name. -/
def symbolRun : List MapStep := [
  setStep "%t1" (.ofSymbol "x"),
  setStep "%t2" (.ofSymbol "y"),
  { target := 0, op := .removeSymbolValues (some "x"), malloc := fun _ => true, distinct := MapOp.other_ne rfl 0 }]

/-- A run that sets so many names in one map. -/
def namesRun (n : ℕ) : List MapStep := (List.range n).map fun k => setStep (Nat.repr k) (.ofInt 0)

theorem length_namesRun (n : ℕ) : (namesRun n).length = n := by
  rw [namesRun, length_map, length_range]

/-- Each of them has a value then. -/
theorem runEffects_namesRun (n : ℕ) (x : String) : runEffects (namesRun n) 0 x ≠ none ↔ ∃ k < n, Nat.repr k = x := by
  induction n with
  | zero =>
    constructor
    · exact fun h => absurd rfl h
    · rintro ⟨k, hk, -⟩
      exact absurd hk (Nat.not_lt_zero k)
  | succ n ih =>
    have hstep : runEffects (namesRun (n + 1)) 0 = (runEffects (namesRun n) 0).set (Nat.repr n) (.ofInt 0) := by
      rw [runEffects, namesRun, range_succ, map_append, foldl_append, map_singleton,
        foldl_cons, foldl_nil]
      exact update_self (0 : ℕ) _ _
    rw [hstep]
    change Function.update (runEffects (namesRun n) 0) (Nat.repr n) (some (.ofInt 0)) x ≠ none ↔ _
    by_cases hx : x = Nat.repr n
    · subst hx
      rw [update_self]
      exact ⟨fun _ => ⟨n, Nat.lt_succ_self n, rfl⟩, fun _ => some_ne_none _⟩
    · rw [update_of_ne hx, ih]
      constructor
      · rintro ⟨k, hk, rfl⟩
        exact ⟨k, Nat.lt_succ_of_lt hk, rfl⟩
      · rintro ⟨k, hk, rfl⟩
        exact ⟨k, lt_of_le_of_ne (Nat.lt_succ_iff.mp hk) fun heq => hx (heq ▸ rfl), rfl⟩

/-- The map has an entry for every name that was set. -/
theorem ncard_namesRun (n : ℕ) : {x | runEffects (namesRun n) 0 x ≠ none}.ncard = n := by
  have hset : {x | runEffects (namesRun n) 0 x ≠ none} = ((Finset.range n).image Nat.repr : Finset String) := by
    ext x
    rw [Set.mem_ofPred_eq, runEffects_namesRun, Finset.coe_image, Set.mem_image]
    simp only [Finset.coe_range, Set.mem_Iio]
  rw [hset, Set.ncard_coe_finset, Finset.card_image_of_injective _ fun _ _ => Nat.repr_injective, Finset.card_range]

theorem slotInt_two_pow : slotInt (2 ^ 31) = -2 ^ 31 := by decide

/-- The entry in slot `2 ^ 31` is not found: its slot is a negative `int`. -/
theorem lookup_slot {m : TempValueMap} (hok : m.Ok) (hlt : 2 ^ 31 < m.table.items.length)
    (hn : m.table.items.length < tvmTomb) (malloc : ℕ → Bool) :
    ∃ m', m.lookup malloc (m.table.items.getD (2 ^ 31) default).name = some (m', none) := by
  obtain ⟨t, ht, -⟩ := find_eq malloc hok.table hn (m.table.items.getD (2 ^ 31) default).name
  rw [slotOf_eq_some hok.table.names hlt rfl, map_some, getD_some, slotInt_two_pow] at ht
  refine ⟨{ m with table := t }, ?_⟩
  rw [TempValueMap.lookup, ValueTable.lookup, ht, map_some, map_some]
  dsimp only
  rw [if_pos (by decide)]

end Mettle.Ir

import Mettle.Ir.Basic

/-!
# The maps from names to operands

`IRTempValueMap` of `ir_optimize_core.c`: an array of entries, an open-addressed index over their names with
tombstones, and the counts of the symbols among the values, which are a map of the same kind whose own counts
are never made. `malloc` says for which sizes an index can be allocated; without an index a lookup goes
through the entries. A `none` result means that the walk over an index would not end.
-/

namespace Mettle.Ir

/-- `ir_operand_clone`, `none` when it fails. -/
def Operand.clone (o : Operand) : Option Operand :=
  match o.kind with
  | .string | .temp | .symbol | .label => if o.name.isSome then some o else none
  | .none | .int | .float => some { o with name := none }

/-- The symbol an operand is. -/
def Operand.symbolName (o : Operand) : Option String := if o.kind = .symbol then o.name else none

/-- `IRTempValueEntry`. -/
structure TempValueEntry where
  name : String
  value : Operand
  deriving DecidableEq, Repr, Inhabited

/-- `IRTempValueMap` without `vsym_counts`. -/
structure ValueTable where
  items : List TempValueEntry := []
  ix : Option (List ℕ) := none
  tombstones : ℕ := 0
  deriving DecidableEq, Repr, Inhabited

/-- `IR_TVM_TOMB`. -/
def tvmTomb : ℕ := 2 ^ 32 - 1

/-- `ir_tvm_hash`. -/
def tvmHash (name : String) : ℕ :=
  (name.toUTF8.toList.foldl (fun h c => (h ^^^ c.toUInt32) * 16777619) (2166136261 : UInt32)).toNat

/-- `(int)` of a slot. -/
def slotInt (slot : ℕ) : ℤ := (BitVec.ofNat 32 slot).toInt

/-! ## The index -/

/-- A walk over the slots of an index from a slot on. -/
def walkFrom (stop : ℕ → Bool) (mask : ℕ) : ℕ → ℕ → Option ℕ
  | 0, _ => none
  | fuel + 1, b => if stop b then some b else walkFrom stop mask fuel ((b + 1) &&& mask)

/-- A walk over the slots of an index from a hash on. -/
def walk (ix : List ℕ) (stop : ℕ → Bool) (hash : ℕ) : Option ℕ :=
  walkFrom stop (ix.length - 1) ix.length (hash &&& (ix.length - 1))

/-- A free slot, or the word of an item with a property. -/
def stopsAt (ix : List ℕ) (p : ℕ → Bool) (b : ℕ) : Bool :=
  ix.getD b 0 = 0 ∨ (ix.getD b 0 ≠ tvmTomb ∧ p (ix.getD b 0 - 1) = true)

namespace ValueTable

variable (malloc : ℕ → Bool) (t : ValueTable)

/-- `ir_tvm_index_insert_with`. -/
def indexInsertWith (hash slot : ℕ) : Option ValueTable :=
  t.ix.bind fun ix =>
    (walk ix (fun b => ix.getD b 0 = 0 ∨ ix.getD b 0 = tvmTomb) hash).map fun b =>
      { t with
        ix := some (ix.set b ((slot + 1) % 2 ^ 32))
        tombstones := if ix.getD b 0 = tvmTomb ∧ 0 < t.tombstones then t.tombstones - 1 else t.tombstones }

/-- The doubling of `want` in `ir_temp_value_map_reindex`. -/
def wantedCapacity (count : ℕ) : ℕ → ℕ → ℕ
  | 0, want => want
  | fuel + 1, want => if want < count * 2 + 8 then wantedCapacity count fuel (want * 2) else want

/-- `ir_temp_value_map_reindex`. -/
def reindex : Option ValueTable :=
  let count := t.items.length
  let capacity := (t.ix.getD []).length
  let want := wantedCapacity count (count * 2 + 8) 32
  if capacity < want ∧ malloc want = false then some { t with ix := none }
  else
    let capacity := if capacity < want then want else capacity
    (List.range count).foldlM
      (fun (s : ValueTable) i => s.indexInsertWith (tvmHash (t.items.getD i default).name) i)
      { t with ix := some (List.replicate capacity 0), tombstones := 0 }

/-- `ir_tvm_index_ensure`. -/
def indexEnsure : Option ValueTable :=
  match t.ix with
  | none => t.reindex malloc
  | some ix => if ix.length ≤ (t.items.length + t.tombstones) * 2 then t.reindex malloc else some t

/-- The entry at a slot has the name. -/
def isAt (name : String) (slot : ℕ) : Bool := slot < t.items.length ∧ (t.items.getD slot default).name = name

/-- `ir_temp_value_map_find`: a negative number when there is no such name. -/
def find (name : String) : Option (ValueTable × ℤ) :=
  if t.items.length = 0 then some (t, -1)
  else
    (t.indexEnsure malloc).bind fun t =>
      match t.ix with
      | none =>
        match t.items.findIdx? fun e => e.name = name with
        | some i => some (t, slotInt i)
        | none => some (t, -1)
      | some ix =>
        (walk ix (stopsAt ix (t.isAt name)) (tvmHash name)).map fun b =>
          (t, if ix.getD b 0 = 0 then -1 else slotInt (ix.getD b 0 - 1))

/-- `ir_tvm_index_erase`. -/
def indexErase (name : String) (slot : ℕ) : Option ValueTable :=
  match t.ix with
  | none => some t
  | some ix =>
    (walk ix (stopsAt ix fun s => s = slot) (tvmHash name)).map fun b =>
      if ix.getD b 0 = 0 then t else { t with ix := some (ix.set b tvmTomb), tombstones := t.tombstones + 1 }

/-- `ir_tvm_index_move`. -/
def indexMove (name : String) (oldSlot newSlot : ℕ) : Option ValueTable :=
  match t.ix with
  | none => some t
  | some ix =>
    (walk ix (stopsAt ix fun s => s = oldSlot) (tvmHash name)).map fun b =>
      if ix.getD b 0 = 0 then t else { t with ix := some (ix.set b ((newSlot + 1) % 2 ^ 32)) }

/-! ## The entries -/

/-- `ir_temp_value_map_lookup`. -/
def lookup (name : String) : Option (ValueTable × Option Operand) :=
  (t.find malloc name).map fun (t, index) =>
    (t, if index < 0 then none else some (t.items.getD index.toNat default).value)

/-- `ir_temp_value_map_remove`, with the value that was removed. -/
def remove (name : String) : Option (ValueTable × Option Operand) :=
  (t.find malloc name).bind fun (t, index) =>
    if index < 0 then some (t, none)
    else
      let idx := index.toNat
      let last := t.items.length - 1
      let entry := t.items.getD idx default
      let moved := t.items.getD last default
      (t.indexErase entry.name idx).bind fun t =>
        if idx = last then some ({ t with items := t.items.take last }, some entry.value)
        else
          ({ t with items := t.items.set idx moved } : ValueTable).indexMove moved.name last idx |>.map fun t =>
            ({ t with items := t.items.take last }, some entry.value)

/-- What `ir_temp_value_map_set` did: the value it replaced and the one it stored, none when it failed. -/
structure Stored where
  replaced : Option Operand := none
  value : Option Operand := none

/-- `ir_temp_value_map_set`. -/
def set (name : String) (value : Operand) : Option (ValueTable × Stored) :=
  (t.find malloc name).bind fun (t, existing) =>
    match value.clone with
    | none => some (t, {})
    | some cloned =>
      if 0 ≤ existing then
        let slot := existing.toNat
        let entry := t.items.getD slot default
        some ({ t with items := t.items.set slot { entry with value := cloned } },
          { replaced := some entry.value, value := some cloned })
      else
        let t : ValueTable := { t with items := t.items ++ [⟨name, cloned⟩] }
        let count := t.items.length
        (if t.ix.isSome ∧ (count + t.tombstones) * 2 < (t.ix.getD []).length then
            t.indexInsertWith (tvmHash name) (count - 1)
          else t.reindex malloc).map fun t => (t, { value := some cloned })

/-- `ir_temp_value_map_clear`. -/
def clear : ValueTable where
  items := []
  ix := t.ix.map fun ix => List.replicate ix.length 0
  tombstones := 0

end ValueTable

/-- `IRTempValueMap`. -/
structure TempValueMap where
  table : ValueTable := {}
  vsymCounts : Option ValueTable := none
  deriving DecidableEq, Repr, Inhabited

namespace TempValueMap

variable (malloc : ℕ → Bool) (m : TempValueMap)

/-! ## The counts of the symbols -/

/-- `ir_tvm_vsym_adjust`. -/
def vsymAdjust (counts : ValueTable) (sym : String) (delta : BitVec 64) : Option ValueTable :=
  (counts.lookup malloc sym).bind fun (counts, cur) =>
    let v := (cur.map Operand.intValue).getD 0 + delta
    if v.sle 0 then (counts.remove malloc sym).map Prod.fst
    else (counts.set malloc sym (.ofInt v)).map Prod.fst

/-- `ir_tvm_vsym_note_value`. -/
def vsymNoteValue (value : Option Operand) (delta : BitVec 64) : Option TempValueMap :=
  match m.vsymCounts, value.bind Operand.symbolName with
  | some counts, some sym =>
    (vsymAdjust malloc counts sym delta).map fun counts => { m with vsymCounts := some counts }
  | _, _ => some m

/-- `ir_tvm_vsym_ensure`. -/
def vsymEnsure : Option TempValueMap :=
  if m.vsymCounts.isSome then some m
  else
    m.table.items.foldlM (fun (m : TempValueMap) e => m.vsymNoteValue malloc (some e.value) 1)
      { m with vsymCounts := some {} }

/-! ## The operations -/

/-- `ir_temp_value_map_lookup`. -/
def lookup (name : String) : Option (TempValueMap × Option Operand) :=
  (m.table.lookup malloc name).map fun (t, v) => ({ m with table := t }, v)

/-- `ir_temp_value_map_remove`. -/
def remove (name : String) : Option TempValueMap :=
  (m.table.remove malloc name).bind fun (t, removed) =>
    ({ m with table := t } : TempValueMap).vsymNoteValue malloc removed (-1)

/-- `ir_temp_value_map_set`, with whether it succeeded. -/
def set (name : String) (value : Operand) : Option (TempValueMap × Bool) :=
  (m.table.set malloc name value).bind fun (t, stored) =>
    (({ m with table := t } : TempValueMap).vsymNoteValue malloc stored.replaced (-1)).bind fun m =>
      (m.vsymNoteValue malloc stored.value 1).map fun m => (m, stored.value.isSome)

/-- The loop that moves the entries to keep to the front. The test of an entry may index another map. -/
def keepEntries {σ : Type} (test : σ → TempValueEntry → Option (σ × Bool)) :
    List TempValueEntry → List TempValueEntry → TempValueMap → σ → Option (List TempValueEntry × TempValueMap × σ)
  | [], kept, m, other => some (kept, m, other)
  | e :: rest, kept, m, other =>
    (test other e).bind fun (other, gone) =>
      if gone then (m.vsymNoteValue malloc (some e.value) (-1)).bind fun m => keepEntries test rest kept m other
      else keepEntries test rest (kept ++ [e]) m other

/-- The entries to keep and, if there are fewer, a new index. -/
def compact {σ : Type} (test : σ → TempValueEntry → Option (σ × Bool)) (other : σ) : Option (TempValueMap × σ) :=
  (keepEntries malloc test m.table.items [] m other).bind fun (kept, m, other) =>
    if m.table.items.length ≠ kept.length then
      (({ m.table with items := kept } : ValueTable).reindex malloc).map fun t => ({ m with table := t }, other)
    else some (m, other)

/-- A value that goes with a symbol, or with any. -/
def isGone (symbol : Option String) (value : Operand) : Bool :=
  match value.symbolName with
  | none => false
  | some s => symbol.isNone ∨ symbol = some s

/-- `ir_temp_value_map_remove_symbol_values`. -/
def removeSymbolValues (symbol : Option String) : Option TempValueMap :=
  let remove (m : TempValueMap) :=
    (m.compact malloc (fun (_ : Unit) e => some ((), isGone symbol e.value)) ()).map Prod.fst
  match symbol with
  | none => remove m
  | some s =>
    (m.vsymEnsure malloc).bind fun m =>
      ((m.vsymCounts.getD {}).lookup malloc s).bind fun (counts, found) =>
        let m := { m with vsymCounts := some counts }
        if found.isNone then some m else remove m

/-- A lookup in a map that may be `NULL`. -/
def lookupIn (map : Option TempValueMap) (name : String) : Option (Option TempValueMap × Option Operand) :=
  match map with
  | none => some (none, none)
  | some map => (map.lookup malloc name).map fun (map, v) => (some map, v)

/-- A store may change the name of an entry or the symbol it holds. -/
def isStored (addrTaken : Option TempValueMap) (e : TempValueEntry) : Option (Option TempValueMap × Bool) :=
  (lookupIn malloc addrTaken e.name).bind fun (addrTaken, found) =>
    if found.isSome then some (addrTaken, true)
    else
      match e.value.symbolName with
      | none => some (addrTaken, false)
      | some s => (lookupIn malloc addrTaken s).map fun (addrTaken, found) => (addrTaken, found.isSome)

/-- `ir_temp_value_map_invalidate_after_store`. -/
def invalidateAfterStore (addrTaken : Option TempValueMap) : Option (TempValueMap × Option TempValueMap) :=
  m.compact malloc (isStored malloc) addrTaken

/-- `ir_temp_value_map_clear`. -/
def clear : TempValueMap where
  table := m.table.clear
  vsymCounts := m.vsymCounts.map ValueTable.clear

/-- The loop of `ir_temp_value_map_clone`, which ends at the first value that cannot be set. -/
def setAll : List TempValueEntry → TempValueMap → Option TempValueMap
  | [], m => some m
  | e :: rest, m => (m.set malloc e.name e.value).bind fun (m, ok) => if ok then setAll rest m else some m

/-- `ir_temp_value_map_clone`, into `m`. -/
def clone (src : TempValueMap) : Option TempValueMap := setAll malloc src.table.items m.clear

/-- The loop of `ir_temp_value_map_intersect_with`. -/
def intersectFrom : ℕ → ℕ → TempValueMap → TempValueMap → Option (TempValueMap × TempValueMap)
  | 0, _, _, _ => none
  | fuel + 1, i, m, other =>
    if m.table.items.length ≤ i then some (m, other)
    else
      let entry := m.table.items.getD i default
      (other.lookup malloc entry.name).bind fun (other, value) =>
        if value.any fun v => entry.value.equals v then intersectFrom fuel (i + 1) m other
        else (m.remove malloc entry.name).bind fun m => intersectFrom fuel i m other

/-- `ir_temp_value_map_intersect_with`. -/
def intersectWith (other : TempValueMap) : Option (TempValueMap × TempValueMap) :=
  intersectFrom malloc (m.table.items.length + 1) 0 m other

end TempValueMap

end Mettle.Ir

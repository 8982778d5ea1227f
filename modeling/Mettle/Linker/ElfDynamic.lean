import Mettle.Lib.Bytes

/-!
# The dynamic symbols of an ELF image

The texts of a dynamic image go into `.dynstr` one after the other: the soname, the run paths and the names of the
needed libraries first, then the names of the symbols, with the names of their versions in between. `.hash` chains the
symbols whose names hash to the same bucket (`linker/elf_dynamic.c`). A loader finds a symbol by walking the chain of
its name's bucket.
-/

namespace Mettle.Linker

open Bytes List

/-! ## Names -/

/-- A C string: bytes before the terminating zero. -/
def CString := { text : List (BitVec 8) // 0 ∉ text }

/-- The C string at an offset. -/
def cStringAt (bytes : List (BitVec 8)) (offset : ℕ) : List (BitVec 8) := (bytes.drop offset).takeWhile (· ≠ 0)

/-- `elf_dynamic_hash`. -/
def elfDynamicHash (name : List (BitVec 8)) : BitVec 32 :=
  name.foldl (fun hash c =>
    let hash := (hash <<< 4) + c.setWidth 32
    let high := hash &&& 0xF0000000
    (if high ≠ 0 then hash ^^^ (high >>> 24) else hash) &&& ~~~high) 0

/-- `elf_dynamic_strings_add`: the offset of the text, and the strings with it. -/
def elfDynamicStringsAdd (strings : List (BitVec 8)) : Option CString → BitVec 32 × List (BitVec 8)
  | none => (0, strings)
  | some text => (BitVec.ofNat 32 strings.length, strings ++ (text.1 ++ [0]))

/-! ## The plan -/

/-- `ElfDynamicSymbolRecord`. -/
structure ElfDynamicSymbolRecord where
  nameOffset : BitVec 32
  info : BitVec 8
  versionIndex : BitVec 16
  importIndex : BitVec 64
  resolutionSymbolIndex : BitVec 64
  isDefinition : Bool
  deriving DecidableEq, Repr

/-- The strings and the symbols of `ElfDynamicPlan`. -/
structure ElfDynamicSymbols where
  strings : List (BitVec 8)
  symbols : List ElfDynamicSymbolRecord
  deriving DecidableEq, Repr

/-- The strings `elf_dynamic_build_symbols` starts from: after the empty string of `elf_dynamic_strings_init`,
`elf_dynamic_plan_create` adds the soname and the run paths, and `elf_dynamic_build_needed` the needed libraries. -/
def elfDynamicStrings (texts : List (Option CString)) : List (BitVec 8) :=
  texts.foldl (fun strings text => (elfDynamicStringsAdd strings text).2) [0]

/-- What `elf_dynamic_build_symbols` adds to a plan: the name of a version that an import asks for
(`elf_dynamic_needed_add_version`), or a symbol. -/
inductive ElfDynamicAddition where
  | version (text : CString)
  | symbol (name : Option CString) (record : ElfDynamicSymbolRecord)

/-- The symbol of an addition. -/
def ElfDynamicAddition.symbol? : ElfDynamicAddition → Option (Option CString × ElfDynamicSymbolRecord)
  | .version _ => none
  | .symbol name record => some (name, record)

namespace ElfDynamicSymbols

/-- The plan `elf_dynamic_build_symbols` starts from: the strings so far, and a first symbol that stands for none. -/
def init (strings : List (BitVec 8)) : ElfDynamicSymbols := ⟨strings, [⟨0, 0, 0, -1, -1, false⟩]⟩

/-- `elf_dynamic_add_symbol_record`, on a record whose name has no offset yet. -/
def addSymbolRecord (plan : ElfDynamicSymbols) (name : Option CString) (record : ElfDynamicSymbolRecord) :
    ElfDynamicSymbols :=
  let (offset, strings) := elfDynamicStringsAdd plan.strings name
  ⟨strings, plan.symbols ++ [{ record with nameOffset := offset }]⟩

/-- One addition; a version only adds its name to the strings of the plan. -/
def add (plan : ElfDynamicSymbols) : ElfDynamicAddition → ElfDynamicSymbols
  | .version text => { plan with strings := (elfDynamicStringsAdd plan.strings (some text)).2 }
  | .symbol name record => plan.addSymbolRecord name record

/-- The plan of a link: the texts that come first, then what `elf_dynamic_build_symbols` adds. -/
def build (texts : List (Option CString)) (additions : List ElfDynamicAddition) : ElfDynamicSymbols :=
  additions.foldl add (init (elfDynamicStrings texts))

variable (plan : ElfDynamicSymbols)

/-- The name of a symbol, read from the strings. -/
def name (i : ℕ) : List (BitVec 8) :=
  cStringAt plan.strings ((plan.symbols[i]?.map ElfDynamicSymbolRecord.nameOffset).getD 0).toNat

/-- The `bucket_count` of `elf_dynamic_reserve_layout` and `elf_dynamic_write_hash`. -/
def bucketCount : BitVec 32 := if 1 < plan.symbols.length then BitVec.ofNat 32 (plan.symbols.length - 1) else 1

/-- Where the word of a bucket is: `buckets + bucket * 4u`. -/
def bucketAt (bucket : BitVec 32) : ℕ := 8 + (bucket * 4).toNat

/-- Where the word of a symbol is: `chains + i * 4u`. -/
def chainAt (i : ℕ) : ℕ := 8 + plan.bucketCount.toNat * 4 + i * 4

/-- One round of the loop of `elf_dynamic_write_hash`. -/
def hashSymbol (table : List (BitVec 8)) (i : ℕ) : List (BitVec 8) :=
  let bucket := elfDynamicHash (plan.name i) % plan.bucketCount
  let table := store32 table (plan.chainAt i) (load32 table (bucketAt bucket))
  store32 table (bucketAt bucket) (BitVec.ofNat 32 i)

/-- `elf_dynamic_write_hash`, on the zeros that `elf_dynamic_reserve_layout` reserves. -/
def writeHash : List (BitVec 8) :=
  let table := List.replicate ((2 + plan.bucketCount.toNat + plan.symbols.length) * 4) 0
  let table := store32 (store32 table 0 plan.bucketCount) 4 (BitVec.ofNat 32 plan.symbols.length)
  (List.range' 1 (plan.symbols.length - 1)).foldl plan.hashSymbol table

end ElfDynamicSymbols

/-! ## What a loader finds -/

/-- The symbols a loader comes by on a chain, from the words of the table alone. -/
def hashChain (table : List (BitVec 8)) : ℕ → ℕ → List ℕ
  | 0, _ => []
  | fuel + 1, i =>
    if i = 0 then []
    else i :: hashChain table fuel (load32 table (8 + (load32 table 0).toNat * 4 + i * 4)).toNat

/-- The symbol of a name that a loader finds, in at most as many steps as there are symbols. -/
def hashLookup (table : List (BitVec 8)) (nameOf : ℕ → List (BitVec 8)) (name : List (BitVec 8)) : Option ℕ :=
  (hashChain table (load32 table 4).toNat
    (load32 table (8 + (elfDynamicHash name % load32 table 0).toNat * 4)).toNat).find? (nameOf · = name)

/-! ## Chains -/

/-- Following `next` from `v` comes by the numbers of the list and then to zero. -/
def Chained (next : ℕ → ℕ) : ℕ → List ℕ → Prop
  | v, [] => v = 0
  | v, i :: rest => v = i ∧ i ≠ 0 ∧ Chained next (next i) rest

/-- A chain depends on its own links only. -/
theorem Chained.congr {next next' : ℕ → ℕ} {v : ℕ} {l : List ℕ} (h : Chained next v l)
    (hnext : ∀ i ∈ l, next' i = next i) : Chained next' v l := by
  induction l generalizing v with
  | nil => exact h
  | cons i rest ih =>
    obtain ⟨rfl, hi, hrest⟩ := h
    refine ⟨rfl, hi, ?_⟩
    rw [hnext v mem_cons_self]
    exact ih hrest fun j hj => hnext j (mem_cons_of_mem v hj)

/-- The loader follows the chain. -/
theorem hashChain_eq {table : List (BitVec 8)} {fuel v : ℕ} {l : List ℕ}
    (h : Chained (fun i => (load32 table (8 + (load32 table 0).toNat * 4 + i * 4)).toNat) v l)
    (hfuel : l.length ≤ fuel) : hashChain table fuel v = l := by
  induction l generalizing v fuel with
  | nil => cases fuel <;> simp [hashChain, show v = 0 from h]
  | cons i rest ih =>
    obtain ⟨rfl, hi, hrest⟩ := h
    obtain ⟨fuel, rfl⟩ := Nat.exists_eq_add_of_le' (Nat.one_le_iff_ne_zero.mpr (by simp at hfuel; omega : fuel ≠ 0))
    rw [hashChain, if_neg hi, ih hrest (Nat.le_of_succ_le_succ hfuel)]

/-- A word beside a stored one stays. -/
theorem load32_store32_of_ne {bytes : List (BitVec 8)} {i j p q : ℕ} {w : BitVec 32} (h : i + 4 ≤ bytes.length)
    (hi : i = 4 * p) (hj : j = 4 * q) (hne : p ≠ q) : load32 (store32 bytes i w) j = load32 bytes j := by
  rw [load32, load32, readAt_store32_of_disjoint h (by omega)]

namespace ElfDynamicSymbols

variable {plan : ElfDynamicSymbols} {table : List (BitVec 8)} {k : ℕ}

/-- The bucket of a symbol. -/
def bucket (plan : ElfDynamicSymbols) (i : ℕ) : ℕ := (elfDynamicHash (plan.name i) % plan.bucketCount).toNat

/-- There is a bucket for each symbol but the null one. -/
theorem bucketCount_toNat (hn : plan.symbols.length ≤ 2 ^ 30 + 1) :
    plan.bucketCount.toNat = max 1 (plan.symbols.length - 1) := by
  unfold bucketCount
  split
  · rw [BitVec.toNat_ofNat, Nat.mod_eq_of_lt (by omega)]
    omega
  · show 1 = _
    omega

/-- A symbol has a bucket. -/
theorem bucket_lt (hn : plan.symbols.length ≤ 2 ^ 30 + 1) (i : ℕ) : plan.bucket i < plan.bucketCount.toNat := by
  exact Nat.mod_lt _ (by rw [bucketCount_toNat hn]; omega)

/-- The offset of a bucket does not wrap. -/
theorem bucketAt_eq {b : BitVec 32} (hn : plan.symbols.length ≤ 2 ^ 30 + 1) (hb : b.toNat < plan.bucketCount.toNat) :
    bucketAt b = 8 + b.toNat * 4 := by
  rw [bucketCount_toNat hn] at hb
  rw [bucketAt, BitVec.toNat_mul, show (4 : BitVec 32).toNat = 4 from rfl, Nat.mod_eq_of_lt (by omega)]

/-- The table with the symbols below `k`: the chain of each bucket has them from the last to the first. -/
structure Hashed (plan : ElfDynamicSymbols) (table : List (BitVec 8)) (k : ℕ) : Prop where
  length : table.length = (2 + plan.bucketCount.toNat + plan.symbols.length) * 4
  nbucket : load32 table 0 = plan.bucketCount
  nchain : load32 table 4 = BitVec.ofNat 32 plan.symbols.length
  chains : ∀ b < plan.bucketCount.toNat, Chained (fun i => (load32 table (plan.chainAt i)).toNat)
    (load32 table (8 + b * 4)).toNat ((List.range k).reverse.filter fun i => 0 < i ∧ plan.bucket i = b)

/-- Entering a symbol puts it at the front of its chain. -/
theorem Hashed.hashSymbol (hn : plan.symbols.length ≤ 2 ^ 30 + 1) (h : plan.Hashed table k) (hpos : 0 < k)
    (hk : k < plan.symbols.length) : plan.Hashed (plan.hashSymbol table k) (k + 1) := by
  have hlength := h.length
  have hb := bucket_lt hn k
  have hat : bucketAt (elfDynamicHash (plan.name k) % plan.bucketCount) = 8 + plan.bucket k * 4 := bucketAt_eq hn hb
  have hchain : plan.chainAt k + 4 ≤ table.length := by
    rw [chainAt]
    omega
  have hlen := store32_length (w := load32 table (8 + plan.bucket k * 4)) hchain
  have hbucket : 8 + plan.bucket k * 4 + 4 ≤
      (store32 table (plan.chainAt k) (load32 table (8 + plan.bucket k * 4))).length := by omega
  -- the only words that change are the chain of `k` and the bucket of `k`
  have hload : ∀ j q, j = 4 * q → q ≠ 2 + plan.bucketCount.toNat + k → q ≠ 2 + plan.bucket k →
      load32 (plan.hashSymbol table k) j = load32 table j := by
    intro j q hj hchain' hbucket'
    rw [ElfDynamicSymbols.hashSymbol, hat, load32_store32_of_ne hbucket (p := 2 + plan.bucket k) (by omega) hj (by omega),
      load32_store32_of_ne hchain (p := 2 + plan.bucketCount.toNat + k) (by rw [chainAt]; omega) hj (by omega)]
  have hself : load32 (plan.hashSymbol table k) (8 + plan.bucket k * 4) = BitVec.ofNat 32 k := by
    rw [ElfDynamicSymbols.hashSymbol, hat, load32_store32_self (by omega)]
  have hnext : load32 (plan.hashSymbol table k) (plan.chainAt k) = load32 table (8 + plan.bucket k * 4) := by
    rw [ElfDynamicSymbols.hashSymbol, hat, load32_store32_of_ne hbucket (p := 2 + plan.bucket k)
      (q := 2 + plan.bucketCount.toNat + k) (by omega) (by rw [chainAt]; omega) (by omega),
      load32_store32_self (by omega)]
  refine ⟨?_, (hload 0 0 rfl (by omega) (by omega)).trans h.nbucket,
    (hload 4 1 rfl (by omega) (by omega)).trans h.nchain, fun b hlt => ?_⟩
  · rw [ElfDynamicSymbols.hashSymbol, hat, store32_length hbucket, hlen, hlength]
  have hold : Chained (fun i => (load32 (plan.hashSymbol table k) (plan.chainAt i)).toNat)
      (load32 table (8 + b * 4)).toNat ((range k).reverse.filter fun i => 0 < i ∧ plan.bucket i = b) := by
    refine (h.chains b hlt).congr fun i hi => ?_
    have hik := mem_range.mp (mem_reverse.mp (mem_of_mem_filter hi))
    rw [hload (plan.chainAt i) (2 + plan.bucketCount.toNat + i) (by rw [chainAt]; omega) (by omega) (by omega)]
  rw [range_succ, reverse_append, reverse_singleton, singleton_append]
  by_cases hbk : plan.bucket k = b
  · rw [filter_cons_of_pos (by simp [hpos, hbk])]
    refine ⟨?_, hpos.ne', ?_⟩
    · rw [← hbk, hself, BitVec.toNat_ofNat, Nat.mod_eq_of_lt (by omega)]
    · dsimp only
      rw [hnext, hbk]
      exact hold
  · rw [filter_cons_of_neg (by simp [hbk]), hload (8 + b * 4) (2 + b) (by omega) (by omega) (by omega)]
    exact hold

theorem load32_replicate_zero (m j : ℕ) : load32 (replicate m 0) j = 0 := by
  have hzero : ∀ m, leValue (replicate m 0) = 0 := by
    intro m
    induction m with
    | zero => rfl
    | succ m ih => rw [replicate_succ, leValue, ih, mul_zero]; rfl
  rw [load32, readAt, drop_replicate, take_replicate, hzero]
  rfl

/-- The loop enters all symbols. -/
theorem Hashed.run (hn : plan.symbols.length ≤ 2 ^ 30 + 1) (h : plan.Hashed table 1) {m : ℕ}
    (hm : m < plan.symbols.length) : plan.Hashed ((range' 1 m).foldl plan.hashSymbol table) (1 + m) := by
  induction m with
  | zero => exact h
  | succ m ih =>
    rw [range'_concat, foldl_append, one_mul]
    exact (ih (by omega)).hashSymbol hn (by omega) (by omega)

/-- The written table has a chain for every bucket. -/
theorem writeHash_hashed (hpos : 0 < plan.symbols.length) (hn : plan.symbols.length ≤ 2 ^ 30 + 1) :
    plan.Hashed plan.writeHash plan.symbols.length := by
  have hlast : 1 + (plan.symbols.length - 1) = plan.symbols.length := by omega
  refine hlast ▸ Hashed.run hn ?_ (m := plan.symbols.length - 1) (by omega)
  have hzeros : (replicate ((2 + plan.bucketCount.toNat + plan.symbols.length) * 4) (0 : BitVec 8)).length =
      (2 + plan.bucketCount.toNat + plan.symbols.length) * 4 := length_replicate
  have hfirst := store32_length (w := plan.bucketCount) (show 0 + 4 ≤ _ by rw [hzeros]; omega)
  refine ⟨?_, ?_, ?_, fun b _ => ?_⟩
  · rw [store32_length (by omega), hfirst, hzeros]
  · rw [load32_store32_of_ne (p := 1) (q := 0) (by omega) rfl rfl (by decide), load32_store32_self (Nat.zero_le _)]
  · rw [load32_store32_self (by omega)]
  · show (load32 _ _).toNat = 0
    rw [load32_store32_of_ne (p := 1) (q := 2 + b) (by omega) rfl (by omega) (by omega),
      load32_store32_of_ne (p := 0) (q := 2 + b) (by omega) rfl (by omega) (by omega), load32_replicate_zero]
    rfl

/-- The loader finds the last symbol of a name. -/
theorem hashLookup_writeHash (hpos : 0 < plan.symbols.length) (hn : plan.symbols.length ≤ 2 ^ 30 + 1)
    (name : List (BitVec 8)) :
    hashLookup plan.writeHash plan.name name =
      (range plan.symbols.length).reverse.find? fun i => 0 < i ∧ plan.name i = name := by
  have h := writeHash_hashed hpos hn
  have hb : (elfDynamicHash name % plan.bucketCount).toNat < plan.bucketCount.toNat := by
    exact Nat.mod_lt _ (by rw [bucketCount_toNat hn]; omega)
  have hchain := h.chains _ hb
  simp only [chainAt, ← h.nbucket] at hchain
  have hlist : hashChain plan.writeHash (load32 plan.writeHash 4).toNat _ = _ := hashChain_eq hchain (by
    rw [h.nchain, BitVec.toNat_ofNat, Nat.mod_eq_of_lt (by omega)]
    exact (length_filter_le _ _).trans (by simp))
  rw [hashLookup, hlist, find?_filter]
  congr 1
  funext i
  -- a symbol of the name is in the bucket of the name
  by_cases hname : plan.name i = name
  · simp [hname, bucket, ← h.nbucket]
  · simp [hname]

/-! ## Names -/

/-- The text is among the strings, at the offset. -/
def Stored (strings : List (BitVec 8)) (offset : BitVec 32) (text : List (BitVec 8)) : Prop :=
  ∃ before after, strings = before ++ (text ++ 0 :: after) ∧ before.length = offset.toNat

variable {strings text : List (BitVec 8)} {offset : BitVec 32}

/-- A text stays where it is stored. -/
theorem Stored.append (h : Stored strings offset text) (more : List (BitVec 8)) : Stored (strings ++ more) offset text := by
  obtain ⟨before, after, rfl, hlength⟩ := h
  exact ⟨before, after ++ more, by simp, hlength⟩

/-- It is read back from there. -/
theorem Stored.cStringAt (h : Stored strings offset text) (htext : 0 ∉ text) : cStringAt strings offset.toNat = text := by
  obtain ⟨before, after, rfl, hlength⟩ := h
  rw [Linker.cStringAt, drop_left' hlength, takeWhile_append_of_pos]
  · simp
  · intro b hb
    simpa using ne_of_mem_of_not_mem hb htext

/-- The text a symbol is given. -/
def textOf : Option CString → List (BitVec 8)
  | none => []
  | some text => text.1

theorem notMem_textOf (name : Option CString) : 0 ∉ textOf name := by
  cases name with
  | none => exact not_mem_nil
  | some text => exact text.2

/-- Adding a text keeps what the strings hold. -/
theorem stringsAdd_append (strings : List (BitVec 8)) (name : Option CString) :
    ∃ more, (elfDynamicStringsAdd strings name).2 = strings ++ more := by
  cases name with
  | none => exact ⟨[], (append_nil _).symm⟩
  | some text => exact ⟨_, rfl⟩

/-- The text of an added symbol is stored; the empty string at offset 0 stands for a missing name. -/
theorem stored_stringsAdd (hempty : Stored strings 0 []) (name : Option CString)
    (hsize : (elfDynamicStringsAdd strings name).2.length ≤ 2 ^ 32) :
    Stored (elfDynamicStringsAdd strings name).2 (elfDynamicStringsAdd strings name).1 (textOf name) := by
  cases name with
  | none => exact hempty
  | some text =>
    simp only [elfDynamicStringsAdd, length_append, length_singleton] at hsize
    refine ⟨strings, [], rfl, ?_⟩
    rw [elfDynamicStringsAdd, BitVec.toNat_ofNat, Nat.mod_eq_of_lt (by omega)]

/-- Whatever texts come first, the empty string stays at offset 0. -/
theorem stored_elfDynamicStrings (texts : List (Option CString)) : Stored (elfDynamicStrings texts) 0 [] := by
  induction texts using reverseRecOn with
  | nil => exact ⟨[], [], rfl, rfl⟩
  | append_singleton texts text ih =>
    obtain ⟨more, hmore⟩ := stringsAdd_append (elfDynamicStrings texts) text
    rw [elfDynamicStrings, foldl_append]
    show Stored (elfDynamicStringsAdd (elfDynamicStrings texts) text).2 0 []
    exact hmore ▸ ih.append more

section

variable (texts : List (Option CString)) (additions : List ElfDynamicAddition)

/-- The symbols among the additions, in their order. -/
def symbolsOf : List (Option CString × ElfDynamicSymbolRecord) := additions.filterMap ElfDynamicAddition.symbol?

/-- An addition keeps what the strings hold, and adds the records of its symbol. -/
theorem add_eq (plan : ElfDynamicSymbols) (a : ElfDynamicAddition) :
    (∃ more, (plan.add a).strings = plan.strings ++ more) ∧
      ∃ offset, (plan.add a).symbols =
        plan.symbols ++ a.symbol?.toList.map fun s => { s.2 with nameOffset := offset } := by
  cases a with
  | version text => exact ⟨stringsAdd_append _ _, 0, (append_nil _).symm⟩
  | symbol name record => exact ⟨stringsAdd_append _ _, _, rfl⟩

/-- Every symbol of a plan has its name among the strings. -/
theorem build_stored (hsize : (build texts additions).strings.length ≤ 2 ^ 32) :
    (build texts additions).symbols.length = (symbolsOf additions).length + 1 ∧
      Stored (build texts additions).strings 0 [] ∧
      ∀ i s, (symbolsOf additions)[i]? = some s → ∃ r, (build texts additions).symbols[i + 1]? = some r ∧
        Stored (build texts additions).strings r.nameOffset (textOf s.1) := by
  induction additions using reverseRecOn with
  | nil => exact ⟨rfl, stored_elfDynamicStrings texts, fun i s h => absurd h (by simp [symbolsOf])⟩
  | append_singleton additions a ih =>
    have hbuild : build texts (additions ++ [a]) = (build texts additions).add a := by
      rw [build, foldl_append]
      rfl
    have hsymbols : symbolsOf (additions ++ [a]) = symbolsOf additions ++ a.symbol?.toList := by
      rw [symbolsOf, filterMap_append]
      cases a <;> rfl
    rw [hbuild] at hsize ⊢
    obtain ⟨⟨more, hmore⟩, offset, hrecords⟩ := add_eq (build texts additions) a
    obtain ⟨hlength, hempty, hall⟩ := ih (by rw [hmore, length_append] at hsize; omega)
    refine ⟨by simp [hrecords, hsymbols, hlength]; omega, hmore ▸ hempty.append more, fun i s hs => ?_⟩
    rw [hsymbols] at hs
    rcases Nat.lt_or_ge i (symbolsOf additions).length with hi | hi
    · -- a symbol that was there keeps its record
      rw [List.getElem?_append_left hi] at hs
      obtain ⟨r, hr, hstored⟩ := hall i s hs
      exact ⟨r, by rw [hrecords, List.getElem?_append_left (by omega), hr], hmore ▸ hstored.append more⟩
    · rw [List.getElem?_append_right hi] at hs
      cases a with
      | version text => simp [ElfDynamicAddition.symbol?] at hs
      | symbol name record =>
        -- the new symbol comes last, and its name was just added
        obtain ⟨hzero, rfl⟩ : i - (symbolsOf additions).length = 0 ∧ (name, record) = s := by
          simpa [ElfDynamicAddition.symbol?, List.getElem?_singleton] using hs
        refine ⟨{ record with nameOffset := (elfDynamicStringsAdd (build texts additions).strings name).1 }, ?_,
          stored_stringsAdd hempty name hsize⟩
        rw [add, addSymbolRecord]
        dsimp only
        rw [List.getElem?_append_right (by omega), show i + 1 - _ = 0 by omega]
        rfl

/-- The name of a record is the one it was added with. -/
theorem name_build (hsize : (build texts additions).strings.length ≤ 2 ^ 32) {i : ℕ}
    {s : Option CString × ElfDynamicSymbolRecord} (hs : (symbolsOf additions)[i]? = some s) :
    (build texts additions).name (i + 1) = textOf s.1 := by
  obtain ⟨r, hr, hstored⟩ := (build_stored texts additions hsize).2.2 i s hs
  rw [name, hr]
  exact hstored.cStringAt (notMem_textOf s.1)

/-- A loader that looks a name up in the tables of a link finds the last symbol of the name, and finds none when there
is none, whatever other texts the strings hold. The strings have to be in range of their 32-bit offsets, and so has the
offset of a bucket, four times its number, which `elf_dynamic_write_hash` computes in 32 bits. -/
theorem build_hashLookup (hcount : (symbolsOf additions).length ≤ 2 ^ 30)
    (hsize : (build texts additions).strings.length ≤ 2 ^ 32) (name : List (BitVec 8)) :
    hashLookup (build texts additions).writeHash (build texts additions).name name =
      ((range (symbolsOf additions).length).reverse.find? fun i =>
        (symbolsOf additions)[i]?.map (textOf ·.1) = some name).map (· + 1) := by
  obtain ⟨hlength, -⟩ := build_stored texts additions hsize
  rw [hashLookup_writeHash (by omega) (by omega), hlength, range_succ_eq_map, reverse_cons,
    ← map_reverse, find?_append, find?_map]
  have hzero : find? (fun i => decide (0 < i ∧ (build texts additions).name i = name)) [0] = none := rfl
  rw [hzero, Option.or_none]
  congr 1
  refine find?_congr fun i hi => ?_
  have hi := mem_range.mp (mem_reverse.mp hi)
  simp [name_build texts additions hsize (List.getElem?_eq_getElem hi), hi]

end

/-- The import `a` of version `b`, and the definitions `b` and `a`. -/
def someAdditions : List ElfDynamicAddition :=
  [.version ⟨[98], by decide⟩, .symbol (some ⟨[97], by decide⟩) ⟨0, 0x12, 2, 0, 0, false⟩,
    .symbol (some ⟨[98], by decide⟩) ⟨0, 0x12, 0, -1, 1, true⟩, .symbol (some ⟨[97], by decide⟩) ⟨0, 0x12, 0, -1, 2, true⟩]

theorem build_hashLookup_some :
    hashLookup (build [some ⟨[108], by decide⟩] someAdditions).writeHash
        (build [some ⟨[108], by decide⟩] someAdditions).name [97] = some 3 ∧
      hashLookup (build [some ⟨[108], by decide⟩] someAdditions).writeHash
        (build [some ⟨[108], by decide⟩] someAdditions).name [108] = none := by
  constructor
  · rw [build_hashLookup _ someAdditions (by decide) (by decide)]
    decide
  · rw [build_hashLookup _ someAdditions (by decide) (by decide)]
    decide

end ElfDynamicSymbols

end Mettle.Linker

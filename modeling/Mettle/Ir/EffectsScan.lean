import Mettle.Ir.Effects

/-!
# What the scan of a function records

The scan keeps one call site for each callee, the first one, and every indirect call. All bits it
records are bits of the table.
-/

open List Option

namespace Mettle.Ir.Effects

variable {P : Program} {index : NameIndex P} {input : EffectInput}

/-! ## Bits of the table -/

namespace EffectInput

/-- An interned effect is one of the bits of the tables. -/
theorem effectBit_lt {name : String} {bit : ℕ} (h : input.effectBit name = some bit) :
    bit < input.bitCount := by
  rw [effectBit] at h
  split at h
  · cases h
    exact Nat.lt_succ_self _
  · obtain ⟨hlt, -⟩ := idxOf?_eq_some_iff.mp h
    exact Nat.lt_succ_of_lt hlt

/-- So the set of at most one interned effect is inside the tables. -/
theorem effectBit_subset (name : String) : (input.effectBit name).toFinset ⊆ Finset.range input.bitCount := by
  intro bit hbit
  exact Finset.mem_range.mpr (effectBit_lt (Option.mem_toFinset.mp hbit))

variable {bits : Finset ℕ} {pending text : List Char} {sig : Signature}

/-- The names of a clause are interned into bits of the tables. -/
theorem clauseBits_subset {names : List String} (h : input.clauseBits names = some bits) :
    bits ⊆ Finset.range input.bitCount := by
  induction names generalizing bits with
  | nil =>
    cases h
    exact Finset.empty_subset _
  | cons name rest ih =>
    rw [clauseBits] at h
    split at h
    · rename_i bit hbit
      obtain ⟨tail, htail, rfl⟩ := map_eq_some_iff.mp h
      exact Finset.insert_subset (Finset.mem_range.mpr (effectBit_lt hbit)) (ih htail)
    · split at h
      · exact ih h
      · cases h

/-- A name of a list in a signature becomes bits of the tables. -/
theorem listedName_subset (h : input.listedName pending = some bits) : bits ⊆ Finset.range input.bitCount := by
  simp only [listedName] at h
  split at h
  · cases h
  · split at h
    · cases h
      exact Finset.empty_subset _
    · obtain ⟨bit, hbit, rfl⟩ := map_eq_some_iff.mp h
      exact Finset.singleton_subset_iff.mpr (Finset.mem_range.mpr (effectBit_lt hbit))

/-- So do all the names up to the end of the list. -/
theorem parseNames_subset (h : input.parseNames pending text = some bits) : bits ⊆ Finset.range input.bitCount := by
  fun_induction parseNames input pending text generalizing bits with
  | case1 =>
    cases h
    exact Finset.empty_subset _
  | case2 pending hne => exact listedName_subset h
  | case3 pending rest ih =>
    simp only [bind_eq_bind, bind_eq_some_iff, Option.pure_def, some.injEq] at h
    obtain ⟨first, hfirst, others, hothers, rfl⟩ := h
    exact Finset.union_subset (listedName_subset hfirst) (ih hothers)
  | case4 pending c rest hc ih => exact ih h

/-- Parsing the clauses of a signature adds bits of the tables only. -/
theorem parseClauses_subset {sig' : Signature} (h : input.parseClauses sig text = some sig')
    (hp : sig.performs ⊆ Finset.range input.bitCount) (hr : sig.requires ⊆ Finset.range input.bitCount) :
    sig'.performs ⊆ Finset.range input.bitCount ∧ sig'.requires ⊆ Finset.range input.bitCount := by
  fun_induction parseClauses input sig text with
  | case1 sig text p hend =>
    cases h
    exact ⟨hp, hr⟩
  | case2 sig text p hend hwith body bits hbits ih =>
    exact ih h (Finset.union_subset hp (parseNames_subset hbits)) hr
  | case4 sig text p hend hwith hrequires body bits hbits ih =>
    exact ih h hp (Finset.union_subset hr (parseNames_subset hbits))
  | _ => cases h

/-- A parsed signature performs and requires effects of the tables. -/
theorem parseSignature_subset {signature : Option String} (h : input.parseSignature signature = some sig) :
    sig.performs ⊆ Finset.range input.bitCount ∧ sig.requires ⊆ Finset.range input.bitCount := by
  rw [parseSignature] at h
  split at h
  · cases h
    exact ⟨Finset.empty_subset _, Finset.empty_subset _⟩
  · exact parseClauses_subset h (Finset.empty_subset _) (Finset.empty_subset _)

end EffectInput

/-- All bits recorded for a function are bits of the table. -/
structure EFn.Bounded (input : EffectInput) (efn : EFn) : Prop where
  sources : efn.sources ⊆ Finset.range input.bitCount
  forbids : efn.forbids ⊆ Finset.range input.bitCount
  requires : efn.requires ⊆ Finset.range input.bitCount
  indirect : ∀ k ∈ efn.indirect, k.2 ⊆ Finset.range input.bitCount

namespace EFn

variable {efn : EFn}

/-- Noting sources of the tables keeps the sets inside them. -/
theorem Bounded.noteSources (h : efn.Bounded input) {bits : Finset ℕ}
    (hbits : bits ⊆ Finset.range input.bitCount) (site : Option ℕ) :
    (efn.noteSources bits site).Bounded input :=
  { h with sources := Finset.union_subset h.sources hbits }

/-- Noting one effect by its name keeps the sets inside the tables. -/
theorem Bounded.noteSource (h : efn.Bounded input) (name : String) (site : ℕ) :
    (efn.noteSource (input.effectBit name) site).Bounded input :=
  h.noteSources (input.effectBit_subset name) _

/-- A callee adds no bits. -/
theorem Bounded.addCallee (h : efn.Bounded input) (callee site : ℕ) :
    (efn.addCallee callee site).Bounded input := by
  rw [EFn.addCallee]
  split
  · exact h
  · exact { h with }

/-- A callee is recorded at its first site; later sites of the same callee change nothing. -/
theorem mem_addCallee {callee site c k : ℕ} :
    (c, k) ∈ (efn.addCallee callee site).callees ↔
      (c, k) ∈ efn.callees ∨ k = site ∧ c = callee ∧ ∀ j, (c, j) ∉ efn.callees := by
  rw [EFn.addCallee]
  split
  · rename_i hany
    obtain ⟨⟨g, j⟩, hmem, hg⟩ := List.any_eq_true.mp hany
    obtain rfl : g = callee := of_decide_eq_true hg
    refine ⟨.inl, ?_⟩
    rintro (hold | ⟨-, rfl, hnone⟩)
    · exact hold
    · exact absurd hmem (hnone j)
  · rename_i hnone
    have hno : ∀ j, (callee, j) ∉ efn.callees := by
      intro j hj
      exact hnone (List.any_eq_true.mpr ⟨_, hj, decide_eq_true rfl⟩)
    rw [mem_append, mem_singleton, Prod.mk.injEq]
    refine or_congr_right ⟨?_, ?_⟩
    · rintro ⟨rfl, rfl⟩
      exact ⟨rfl, rfl, hno⟩
    · rintro ⟨rfl, rfl, -⟩
      exact ⟨rfl, rfl⟩

/-- An indirect call adds the needs of its signature, which are in the tables. -/
theorem Bounded.addIndirect (h : efn.Bounded input) {requires : Finset ℕ}
    (hrequires : requires ⊆ Finset.range input.bitCount) (site : ℕ) :
    (efn.addIndirect site requires).Bounded input where
  sources := h.sources
  forbids := h.forbids
  requires := h.requires
  indirect k hk := by
    rcases mem_append.mp hk with hk | hk
    · exact h.indirect k hk
    · obtain rfl := mem_singleton.mp hk
      exact hrequires

end EFn

/-! ## One instruction -/

/-- The function that an instruction calls directly. -/
def directCallee (index : NameIndex P) (insn : EInst) : Option ℕ :=
  if insn.op = .call then
    insn.text.bind fun name => if name = "__mtl_syscall" then none else P.definedCallee index name
  else none

/-- What an indirect call requires. -/
def indirectRequires (input : EffectInput) (insn : EInst) : Option (Finset ℕ) :=
  if insn.op = .callIndirect then (input.parseSignature insn.effectSignature).map (·.requires) else none

/-- What a step of the scan does to the record. -/
structure Scanned (index : NameIndex P) (input : EffectInput) (site : ℕ) (insn : EInst) (efn efn' : EFn) :
    Prop where
  bounded : efn.Bounded input → efn'.Bounded input
  callees : efn'.callees =
    ((directCallee index insn).elim efn fun callee => efn.addCallee callee site).callees
  indirect : efn'.indirect = efn.indirect ++ (indirectRequires input insn).toList.map (site, ·)

variable {efn' : EFn} {name : String} {site k callee : ℕ} {insn : EInst} {isKernel : Bool} {insns : List EInst}

/-- The `performs` clause of an extern adds sources at the site, or the function stays as it was. -/
theorem externPerforms_spec {efn : EFn} (h : externPerforms P index input efn name site = some efn') :
    efn' = efn ∨ ∃ bits ⊆ Finset.range input.bitCount, efn' = efn.noteSources bits (some site) := by
  simp only [externPerforms] at h
  split at h
  · obtain ⟨bits, hbits, rfl⟩ := map_eq_some_iff.mp h
    exact .inr ⟨bits, EffectInput.clauseBits_subset hbits, rfl⟩
  · split at h
    · obtain ⟨bits, hbits, rfl⟩ := map_eq_some_iff.mp h
      exact .inr ⟨bits, EffectInput.parseNames_subset hbits, rfl⟩
    · split at h
      · exact .inl (some.inj h).symm
      · exact .inr ⟨_, input.effectBit_subset "alloc", (some.inj h).symm⟩

/-- A direct call records its callee when the program defines it, and sources of the tables otherwise. -/
theorem scanCall_spec {efn : EFn} (h : scanCall P index input efn name site = some efn') :
    efn' = ((if name = "__mtl_syscall" then none else P.definedCallee index name).elim efn
      fun callee => efn.addCallee callee site) ∨
    (if name = "__mtl_syscall" then none else P.definedCallee index name) = none ∧
      ∃ bits ⊆ Finset.range input.bitCount, efn' = efn.noteSources bits (some site) := by
  rw [scanCall] at h
  split at h
  · rename_i hname
    rw [if_pos hname]
    exact .inr ⟨rfl, _, input.effectBit_subset "syscall", (some.inj h).symm⟩
  · rename_i hname
    rw [if_neg hname]
    split at h
    · rename_i callee hcallee
      rw [hcallee]
      exact .inl (some.inj h).symm
    · rename_i hnone
      rw [hnone]
      split at h
      · exact .inr ⟨rfl, _, input.effectBit_subset "alloc", (some.inj h).symm⟩
      · rcases externPerforms_spec h with rfl | hbits
        · exact .inl rfl
        · exact .inr ⟨rfl, hbits⟩

/-- An instruction that calls nothing adds sources or requirements only. -/
theorem Scanned.of_noteSources {efn : EFn} {bits : Finset ℕ} (at_ : Option ℕ)
    (hcallee : directCallee index insn = none) (hindirect : indirectRequires input insn = none)
    (hbits : bits ⊆ Finset.range input.bitCount) :
    Scanned index input site insn efn (efn.noteSources bits at_) where
  bounded h := h.noteSources hbits at_
  callees := by rw [hcallee]; rfl
  indirect := by rw [hindirect]; exact (append_nil _).symm

/-- An instruction that calls nothing can leave the record as it is. -/
theorem Scanned.refl {efn : EFn} {insn : EInst} {site : ℕ} (hcallee : directCallee index insn = none)
    (hindirect : indirectRequires input insn = none) : Scanned index input site insn efn efn where
  bounded := id
  callees := by rw [hcallee]; rfl
  indirect := by rw [hindirect]; exact (append_nil _).symm

/-- An instruction with no indirect call records what it calls directly. -/
theorem Scanned.of_callee {efn : EFn} (hindirect : indirectRequires input insn = none) :
    Scanned index input site insn efn
      ((directCallee index insn).elim efn fun callee => efn.addCallee callee site) := by
  cases hcallee : directCallee index insn with
  | none => exact .refl hcallee hindirect
  | some callee =>
    refine ⟨fun h => h.addCallee callee site, by rw [hcallee], ?_⟩
    rw [hindirect]
    simp only [elim_some, EFn.addCallee, toList_none, map_nil, append_nil]
    split <;> rfl

/-- What the scan of one opcode records. -/
theorem scanOp_spec {efn : EFn} (h : scanOp P index input isKernel efn site insn = some efn') :
    Scanned index input site insn efn efn' := by
  have hnone : insn.op ≠ .call → directCallee index insn = none := fun hop => if_neg hop
  have hdirect : insn.op ≠ .callIndirect → indirectRequires input insn = none := fun hop => if_neg hop
  rw [scanOp] at h
  -- by the instruction: a barrier, an allocation, assembly, a direct call, an indirect one, the rest
  split at h
  · rename_i hop
    cases h
    have hcallee := hnone (by rw [hop]; decide)
    have hindirect := hdirect (by rw [hop]; decide)
    split
    · exact .refl hcallee hindirect
    · exact {
        bounded := fun h => { h with requires := Finset.union_subset h.requires (input.effectBit_subset _) }
        callees := by rw [hcallee]; rfl
        indirect := by rw [hindirect]; exact (append_nil _).symm }
  · rename_i hop
    cases h
    exact .of_noteSources _ (hnone (by rw [hop]; decide)) (hdirect (by rw [hop]; decide))
      (input.effectBit_subset _)
  · rename_i hop
    cases h
    exact .of_noteSources _ (hnone (by rw [hop]; decide)) (hdirect (by rw [hop]; decide))
      (input.effectBit_subset _)
  · rename_i hop
    have hindirect := hdirect (by rw [hop]; decide)
    split at h
    · rename_i name hname
      have hcallee : directCallee index insn =
          if name = "__mtl_syscall" then none else P.definedCallee index name := by
        rw [directCallee, if_pos hop, hname, bind_some]
      have hspec := scanCall_spec h
      rw [← hcallee] at hspec
      rcases hspec with rfl | ⟨hno, bits, hbits, rfl⟩
      · exact .of_callee hindirect
      · exact .of_noteSources _ hno hindirect hbits
    · rename_i hname
      cases h
      refine .refl ?_ hindirect
      rw [directCallee, if_pos hop, hname, bind_none]
  · rename_i hop
    obtain ⟨sig, hsig, rfl⟩ := map_eq_some_iff.mp h
    obtain ⟨hperforms, hrequires⟩ := EffectInput.parseSignature_subset hsig
    exact {
      bounded := fun h => by
        refine (h.noteSources ?_ _).addIndirect hrequires site
        split
        · exact hperforms
        · exact Finset.singleton_subset_iff.mpr (Finset.mem_range.mpr (Nat.lt_succ_self _))
      callees := by rw [hnone (by rw [hop]; decide)]; rfl
      indirect := by rw [indirectRequires, if_pos hop, hsig]; rfl }
  · rename_i hbarrier hnew hasm hcall hcallIndirect
    cases h
    exact .refl (hnone hcall) (hdirect hcallIndirect)

/-- What the scan of one instruction records, its explicit effects included. -/
theorem scanInst_spec {efn : EFn} (h : scanInst P index input isKernel efn site insn = some efn') :
    Scanned index input site insn efn efn' := by
  obtain ⟨mid, hmid, rfl⟩ := map_eq_some_iff.mp h
  have hspec := scanOp_spec hmid
  split
  · exact { hspec with bounded := fun h => (hspec.bounded h).noteSource "alloc" site }
  · exact hspec

/-! ## A whole function -/

/-- The function that the instruction at a place calls directly. -/
def calleeAt (index : NameIndex P) (insns : List EInst) (k : ℕ) : Option ℕ :=
  insns[k]?.bind (directCallee index)

/-- The first place that calls a function. -/
def FirstCall (index : NameIndex P) (insns : List EInst) (k callee : ℕ) : Prop :=
  calleeAt index insns k = some callee ∧ ∀ j < k, calleeAt index insns j ≠ some callee

/-- The calls before the end do not depend on what comes after them. -/
theorem calleeAt_append_of_lt (hk : k < insns.length) (insn : EInst) :
    calleeAt index (insns ++ [insn]) k = calleeAt index insns k := by
  rw [calleeAt, calleeAt, List.getElem?_append_left hk]

/-- The last instruction is asked for its own callee. -/
theorem calleeAt_append_length (insns : List EInst) (insn : EInst) :
    calleeAt index (insns ++ [insn]) insns.length = directCallee index insn := by
  rw [calleeAt, List.getElem?_concat_length, bind_some]

theorem calleeAt_lt (h : calleeAt index insns k = some callee) : k < insns.length := by
  by_contra hk
  rw [calleeAt, List.getElem?_eq_none (Nat.le_of_not_lt hk)] at h
  cases h

/-- Of the calls of a callee one is the first. -/
theorem FirstCall.exists_of_calleeAt (h : calleeAt index insns k = some callee) :
    ∃ first ≤ k, FirstCall index insns first callee := by
  classical
  have hex : ∃ first, calleeAt index insns first = some callee := ⟨k, h⟩
  exact ⟨Nat.find hex, Nat.find_le h, Nat.find_spec hex, fun j hj => Nat.find_min hex hj⟩

/-- With one more instruction, the first calls are the old ones and the new call if its callee was not called before.
-/
theorem firstCall_append :
    FirstCall index (insns ++ [insn]) k callee ↔
      FirstCall index insns k callee ∨ k = insns.length ∧ directCallee index insn = some callee ∧
        ∀ j, calleeAt index insns j ≠ some callee := by
  constructor
  · rintro ⟨hat, hbefore⟩
    have hk := calleeAt_lt hat
    rw [length_append, length_singleton, Nat.lt_succ_iff] at hk
    rcases Nat.lt_or_eq_of_le hk with hlt | rfl
    · rw [calleeAt_append_of_lt hlt] at hat
      refine .inl ⟨hat, fun j hj => ?_⟩
      rw [← calleeAt_append_of_lt (hj.trans hlt) insn]
      exact hbefore j hj
    · rw [calleeAt_append_length] at hat
      refine .inr ⟨rfl, hat, fun j hj => hbefore j (calleeAt_lt hj) ?_⟩
      rw [calleeAt_append_of_lt (calleeAt_lt hj), hj]
  · rintro (⟨hat, hbefore⟩ | ⟨rfl, hat, hnone⟩)
    · have hk := calleeAt_lt hat
      refine ⟨by rw [calleeAt_append_of_lt hk, hat], fun j hj => ?_⟩
      rw [calleeAt_append_of_lt (hj.trans hk)]
      exact hbefore j hj
    · refine ⟨by rw [calleeAt_append_length, hat], fun j hj => ?_⟩
      rw [calleeAt_append_of_lt hj]
      exact hnone j

/-- The record has the first call of each callee and all indirect calls. -/
structure EFn.Records (index : NameIndex P) (input : EffectInput) (insns : List EInst) (efn : EFn) :
    Prop where
  callees : ∀ callee k, (callee, k) ∈ efn.callees ↔ FirstCall index insns k callee
  indirect : ∀ k requires, (k, requires) ∈ efn.indirect ↔
    insns[k]?.bind (indirectRequires input) = some requires

/-- Scanning one instruction more is scanning it after the others. -/
theorem scanInsts_append {efn : EFn} :
    scanInsts P index input isKernel site (insns ++ [insn]) efn =
      (scanInsts P index input isKernel site insns efn).bind fun mid =>
        scanInst P index input isKernel mid (site + insns.length) insn := by
  induction insns generalizing site efn with
  | nil =>
    exact bind_fun_some _
  | cons first rest ih =>
    simp only [cons_append, scanInsts, length_cons]
    rw [bind_assoc]
    refine Option.bind_congr fun mid _ => ?_
    rw [ih, Nat.succ_add_eq_add_succ]

/-- The scan of the instructions stays in the tables and records the first direct call of each callee and every
indirect call. -/
theorem scanInsts_spec {efn : EFn} (hcallees : efn.callees = []) (hindirect : efn.indirect = [])
    (h : scanInsts P index input isKernel 0 insns efn = some efn') :
    (efn.Bounded input → efn'.Bounded input) ∧ efn'.Records index input insns := by
  -- on the instructions from the front, one more at the end
  induction insns using reverseRecOn generalizing efn' with
  | nil =>
    cases h
    refine ⟨id, fun callee k => ?_, fun k requires => ?_⟩
    · simp [hcallees, FirstCall, calleeAt]
    · simp [hindirect]
  | append_singleton insns insn ih =>
    rw [scanInsts_append, bind_eq_some_iff] at h
    obtain ⟨mid, hmid, hlast⟩ := h
    rw [Nat.zero_add] at hlast
    obtain ⟨hbounded, hbefore⟩ := ih hmid
    have hstep := scanInst_spec hlast
    refine ⟨fun hb => hstep.bounded (hbounded hb), fun callee k => ?_, fun k requires => ?_⟩
    · have hnew : (∀ j, calleeAt index insns j ≠ some callee) ↔ ∀ j, (callee, j) ∉ mid.callees := by
        simp only [hbefore.callees]
        refine ⟨fun hno j hj => hno j hj.1, fun hno j hj => ?_⟩
        obtain ⟨first, -, hfirst⟩ := FirstCall.exists_of_calleeAt hj
        exact hno first hfirst
      rw [hstep.callees, firstCall_append, ← hbefore.callees, hnew]
      cases hcallee : directCallee index insn with
      | none => simp
      | some g =>
        rw [elim_some, EFn.mem_addCallee, some.injEq, eq_comm (a := g)]
    · rw [hstep.indirect, mem_append, hbefore.indirect]
      rcases Nat.lt_trichotomy k insns.length with hlt | rfl | hgt
      · rw [List.getElem?_append_left hlt]
        refine or_iff_left_of_imp fun hmem => ?_
        obtain ⟨_, _, hpair⟩ := List.mem_map.mp hmem
        exact absurd (congrArg Prod.fst hpair) hlt.ne'
      · rw [List.getElem?_concat_length, List.getElem?_eq_none le_rfl]
        simp
      · rw [List.getElem?_eq_none hgt.le, List.getElem?_eq_none (by simpa using hgt)]
        simpa using fun _ => hgt.ne

/-- The scan of a function records its calls, from the effects of its own clauses on. -/
theorem scanFunction_spec {fn : EFunction} {efn : EFn} (h : scanFunction P index input fn = some efn) :
    efn.Bounded input ∧ efn.Records index input fn.instructions := by
  simp only [scanFunction, bind_eq_bind, bind_eq_some_iff] at h
  obtain ⟨performsClause, hperforms, forbids, hforbids, requires, hrequires, provides, -, hscan⟩ := h
  obtain ⟨hbounded, hrecords⟩ := scanInsts_spec rfl rfl hscan
  refine ⟨hbounded ?_, hrecords⟩
  exact {
    sources := Finset.union_subset (Finset.empty_subset _) (EffectInput.clauseBits_subset hperforms)
    forbids := EffectInput.clauseBits_subset hforbids
    requires := EffectInput.clauseBits_subset hrequires
    indirect := nofun }

end Mettle.Ir.Effects

import Mettle.Ir.CseTable

/-!
# Available expressions

What the pass computes, without its table: the instructions whose destination stands for their
expression at a place (`Function.cached`), and the reuses that follow (`Function.Reuses`). The table
holds the entries of these instructions throughout the walk, so the output differs from the input in
the reuses only.
-/

open List Option

namespace Mettle.Ir

/-- The destination of an instruction overwrites an operand of the entry, as the pass sees it. -/
def Inst.overwrites (i : Inst) (e : ExprEntry) : Bool :=
  (i.writesTemp && e.usesNamed .temp (i.dest.name.getD "")) ||
    (i.writesSymbol && e.usesNamed .symbol (i.dest.name.getD ""))

/-- The destination of an instruction is none of its operands. -/
def Inst.keepsOperands (i : Inst) : Bool := !i.dest.equals i.lhs && !i.dest.equals i.rhs

/-- The cached instructions that the destination of `i` does not overwrite. -/
def Function.spared (fn : Function) (cached : List ℕ) (i : Inst) : List ℕ :=
  cached.filter fun k => !i.overwrites (fn.insn k).exprEntry

/-- The cached instructions after `i`, which is at `j`. -/
def Function.cachedAfter (fn : Function) (addrTaken : String → Bool) (cached : List ℕ) (j : ℕ)
    (i : Inst) : List ℕ :=
  if i.op = .label ∨ i.clearsTable = true then []
  else if i.op = .store then
    cached.filter fun k => !(fn.insn k).exprEntry.isAliasable addrTaken
  else if i.isCseCandidate = true ∧ i.keepsOperands = true ∧
      (fn.spared cached i).all (fun k => !(fn.insn k).exprEntry.matchesInst i) = true then
    fn.spared cached i ++ [j]
  else fn.spared cached i

/-- The instructions whose destination stands for their expression before the instruction at `j`. -/
def Function.cached (fn : Function) (addrTaken : String → Bool) : ℕ → List ℕ
  | 0 => []
  | j + 1 => fn.cachedAfter addrTaken (fn.cached addrTaken j) j (fn.insn j)

/-- The instruction at `j` takes the value of the one at `i`. -/
def Function.Reuses (fn : Function) (addrTaken : String → Bool) (i j : ℕ) : Prop :=
  i ∈ fn.spared (fn.cached addrTaken j) (fn.insn j) ∧ (fn.insn j).isCseCandidate = true ∧
    (fn.insn i).exprEntry.matchesInst (fn.insn j) = true

instance (fn : Function) (addrTaken : String → Bool) (i j : ℕ) :
    Decidable (fn.Reuses addrTaken i j) := by
  unfold Function.Reuses
  infer_instance

variable {hash : String → UInt64} {addrTaken : String → Bool} {fn : Function} {m : ExprMap} {j : ℕ}

theorem value_exprEntry (i : Inst) : i.exprEntry.value = i.dest := by
  unfold Inst.exprEntry
  split <;> rfl

variable {i : Inst} {cached : List ℕ}

/-- A candidate neither clears the table nor stores. -/
theorem op_of_isCseCandidate (h : i.isCseCandidate = true) :
    i.op = .binary ∨ i.op = .unary ∨ i.op = .cast ∨ i.op = .addressOf := by
  unfold Inst.isCseCandidate at h
  cases hop : i.op <;> simp [hop] at h ⊢

/-- A store writes no variable. -/
theorem overwrites_store (h : i.op = .store) (e : ExprEntry) : i.overwrites e = false := by
  simp [Inst.overwrites, Inst.writesTemp, Inst.writesSymbol, Inst.opWritesSymbol, h]

/-- The table holds the entries of the instructions. -/
structure Holds (hash : String → UInt64) (fn : Function) (m : ExprMap) (cached : List ℕ) : Prop where
  ok : ExprMap.TableOk hash m
  live : ∀ e, m.Live e ↔ ∃ k ∈ cached, e = (fn.insn k).exprEntry

/-- Dropping the entries with a property. -/
theorem Holds.filter {m' : ExprMap} {p : ExprEntry → Bool} (h : Holds hash fn m cached)
    (hok : ExprMap.TableOk hash m') (hlive : ∀ e, m'.Live e ↔ m.Live e ∧ p e = false) :
    Holds hash fn m' (cached.filter fun k => !p (fn.insn k).exprEntry) := by
  refine ⟨hok, fun e => ?_⟩
  rw [hlive, h.live]
  constructor
  · rintro ⟨⟨k, hk, rfl⟩, hp⟩
    exact ⟨k, mem_filter.mpr ⟨hk, by simp [hp]⟩, rfl⟩
  · rintro ⟨k, hk, rfl⟩
    rw [mem_filter, Bool.not_eq_true'] at hk
    exact ⟨⟨k, hk.1, rfl⟩, hk.2⟩

/-- The write of an instruction drops the entries it overwrites. -/
theorem Holds.spared (h : Holds hash fn m cached) (i : Inst) :
    Holds hash fn
      (let m := if i.writesTemp then m.invalidateNamed hash .temp (i.dest.name.getD "") else m
      if i.writesSymbol then m.invalidateNamed hash .symbol (i.dest.name.getD "") else m)
      (fn.spared cached i) := by
  have htemp := ExprMap.invalidateNamed_spec h.ok (Or.inl (rfl : OperandKind.temp = .temp)) (i.dest.name.getD "")
  by_cases hw : i.writesTemp = true
  · have hkind : i.writesSymbol = false := by
      unfold Inst.writesTemp Operand.isTemp at hw
      unfold Inst.writesSymbol Operand.isSymbol
      simp only [decide_eq_true_eq] at hw
      simp [hw.1.1]
    rw [if_pos hw]
    simp only [hkind, Bool.false_eq_true, if_false]
    refine h.filter htemp.1 fun e => (htemp.2 e).trans ?_
    simp [Inst.overwrites, hw, hkind]
  · rw [if_neg hw]
    split
    · rename_i hs
      have hsym := ExprMap.invalidateNamed_spec h.ok (Or.inr (rfl : OperandKind.symbol = .symbol))
        (i.dest.name.getD "")
      refine h.filter hsym.1 fun e => (hsym.2 e).trans ?_
      simp [Inst.overwrites, hw, hs]
    · rename_i hs
      refine h.filter h.ok fun e => ?_
      simp [Inst.overwrites, hw, hs]

theorem holds_clear (m : ExprMap) : Holds hash fn m.clear [] := by
  refine ⟨ExprMap.tableOk_clear m, fun e => ⟨fun h => absurd h ExprMap.not_live_clear, ?_⟩⟩
  rintro ⟨k, hk, -⟩
  cases hk

/-- An instruction that matches no entry is cached, unless it overwrites an operand. -/
theorem Holds.store (h : Holds hash fn m cached)
    (hfresh : ∀ k ∈ cached, (fn.insn k).exprEntry.matchesInst (fn.insn j) = false) :
    ∃ m', m.storeValue hash (fn.insn j) = some m' ∧
      Holds hash fn m' (if (fn.insn j).keepsOperands = true then cached ++ [j] else cached) := by
  obtain ⟨m', hstore, hok', hlive'⟩ := ExprMap.storeValue_spec h.ok (i := fn.insn j) (by
    intro e he
    obtain ⟨k, hk, rfl⟩ := (h.live e).mp he
    exact hfresh k hk)
  refine ⟨m', hstore, hok', fun e => ?_⟩
  have hkeeps : (fn.insn j).keepsOperands = true ↔ (fn.insn j).dest.equals (fn.insn j).lhs = false ∧
      (fn.insn j).dest.equals (fn.insn j).rhs = false := by
    unfold Inst.keepsOperands
    rw [Bool.and_eq_true, Bool.not_eq_true', Bool.not_eq_true']
  rw [hlive', h.live, ← hkeeps]
  split
  · rename_i hk
    simp only [mem_append, mem_singleton, hk, true_and]
    constructor
    · rintro (⟨k, hk, rfl⟩ | rfl)
      · exact ⟨k, Or.inl hk, rfl⟩
      · exact ⟨j, Or.inr rfl, rfl⟩
    · rintro ⟨k, hk | rfl, rfl⟩
      · exact Or.inl ⟨k, hk, rfl⟩
      · exact Or.inr rfl
  · rename_i hk
    simp [hk]

/-- What the pass makes of the instruction at `j`. -/
def Function.Outcome (fn : Function) (addrTaken : String → Bool) (j : ℕ) (out : Inst) : Prop :=
  (out = fn.insn j ∧ ∀ i, ¬ fn.Reuses addrTaken i j) ∨
    ∃ i, fn.Reuses addrTaken i j ∧ out = (fn.insn j).rewriteToAssignOperand (fn.insn i).dest

/-- One instruction of the pass. -/
theorem cseInst_spec (h : Holds hash fn m (fn.cached addrTaken j)) :
    ∃ m' out, cseInst hash addrTaken m (fn.insn j) = some (m', out) ∧
      Holds hash fn m' (fn.cached addrTaken (j + 1)) ∧ fn.Outcome addrTaken j out := by
  change ∃ m' out, _ ∧ Holds hash fn m' (fn.cachedAfter addrTaken (fn.cached addrTaken j) j (fn.insn j)) ∧ _
  have hspared := h.spared (fn.insn j)
  -- what is no candidate cannot reuse anything
  have hunused : (fn.insn j).isCseCandidate = false → ∀ i, ¬ fn.Reuses addrTaken i j := by
    intro hno i hi
    rw [hi.2.1] at hno
    cases hno
  unfold cseInst Function.cachedAfter
  -- a label empties the table
  by_cases hlabel : (fn.insn j).op = .label
  · rw [if_pos hlabel, if_pos (Or.inl hlabel)]
    refine ⟨_, _, rfl, holds_clear m, Or.inl ⟨rfl, hunused ?_⟩⟩
    simp [Inst.isCseCandidate, hlabel]
  rw [if_neg hlabel]
  simp only at hspared ⊢
  generalize (if (fn.insn j).writesSymbol then ExprMap.invalidateNamed hash
    (if (fn.insn j).writesTemp then m.invalidateNamed hash .temp ((fn.insn j).dest.name.getD "") else m)
    .symbol ((fn.insn j).dest.name.getD "") else
    (if (fn.insn j).writesTemp then m.invalidateNamed hash .temp ((fn.insn j).dest.name.getD "") else m))
    = m₁ at hspared ⊢
  by_cases hcand : (fn.insn j).isCseCandidate = true
  · have hkeep : (fn.insn j).clearsTable = false ∧ (fn.insn j).op ≠ .store := by
      rcases op_of_isCseCandidate hcand with hop | hop | hop | hop <;> simp [Inst.clearsTable, hop]
    simp only [hcand, if_true, hlabel, hkeep.1, hkeep.2, false_or, Bool.false_eq_true, if_false, true_and]
    obtain ⟨m₂, r, hfind, hok₂, hitems, hsome, hnone⟩ := ExprMap.find_spec hspared.ok (fn.insn j)
    have hlive₂ : ∀ e, m₂.Live e ↔ m₁.Live e := by
      intro e
      unfold ExprMap.Live
      rw [hitems]
    rw [hfind, bind_some]
    rcases r with _ | k
    · -- no match: the instruction may be cached
      have hfresh : ∀ k ∈ fn.spared (fn.cached addrTaken j) (fn.insn j),
          (fn.insn k).exprEntry.matchesInst (fn.insn j) = false := by
        intro k hk
        exact hnone rfl _ ((hspared.live _).mpr ⟨k, hk, rfl⟩)
      have hall : (fn.spared (fn.cached addrTaken j) (fn.insn j)).all
          (fun k => !(fn.insn k).exprEntry.matchesInst (fn.insn j)) = true := by
        rw [List.all_eq_true]
        intro k hk
        simp [hfresh k hk]
      obtain ⟨m₃, hstore, h₃⟩ := Holds.store (j := j)
        ⟨hok₂, fun e => (hlive₂ e).trans (hspared.live e)⟩ hfresh
      simp only [hstore, map_some, hkeep.1, hkeep.2, Bool.false_eq_true, if_false, hall, and_true]
      refine ⟨m₃, fn.insn j, rfl, h₃, Or.inl ⟨rfl, fun i hi => ?_⟩⟩
      have hmatch := hi.2.2
      rw [hfresh i hi.1] at hmatch
      cases hmatch
    · -- a match: the instruction becomes a copy
      obtain ⟨hk, hmatch⟩ := hsome k rfl
      obtain ⟨i, hi, hentry⟩ := (hspared.live _).mp (ExprMap.live_of_alive hk)
      have hall : (fn.spared (fn.cached addrTaken j) (fn.insn j)).all
          (fun k => !(fn.insn k).exprEntry.matchesInst (fn.insn j)) = false := by
        rw [List.all_eq_false]
        exact ⟨i, hi, by rw [← hentry, hmatch]; simp⟩
      simp only [map_some, hall, Bool.false_eq_true, and_false, if_false]
      have hassign : ∀ o, ((fn.insn j).rewriteToAssignOperand o).op = .assign := fun o => rfl
      have hclears : ∀ o, ((fn.insn j).rewriteToAssignOperand o).clearsTable = false := fun o => rfl
      refine ⟨m₂, _, rfl, ⟨hok₂, fun e => (hlive₂ e).trans (hspared.live e)⟩, Or.inr ⟨i, ⟨hi, hcand, ?_⟩, ?_⟩⟩
      · rw [← hentry]
        exact hmatch
      · rw [hitems, hentry, value_exprEntry]
  -- no candidate: a call or a store only takes entries away
  · rw [Bool.not_eq_true] at hcand
    simp only [hcand, Bool.false_eq_true, if_false, map_some, false_and]
    refine ⟨_, _, rfl, ?_, Or.inl ⟨rfl, hunused hcand⟩⟩
    by_cases hclear : (fn.insn j).clearsTable = true
    · simp only [hclear, or_true, if_true]
      exact holds_clear _
    · rw [if_neg hclear, if_neg (not_or_intro hlabel hclear)]
      by_cases hstore : (fn.insn j).op = .store
      · simp only [hstore, if_true]
        have hall : fn.spared (fn.cached addrTaken j) (fn.insn j) = fn.cached addrTaken j := by
          unfold Function.spared
          simp [overwrites_store hstore]
        rw [hall] at hspared
        obtain ⟨hok', hlive'⟩ := ExprMap.invalidateAfterStore_spec hspared.ok addrTaken
        exact hspared.filter hok' hlive'
      · simp only [hstore, if_false]
        exact hspared

theorem drop_insn (fn : Function) (hj : j < fn.instructions.length) :
    fn.instructions.drop j = fn.insn j :: fn.instructions.drop (j + 1) := by
  rw [drop_eq_getElem_cons hj, Function.insn, getD_eq_getElem _ _ hj]

/-- The walk from the instruction at `j` on. -/
theorem cseInsts_spec (hash : String → UInt64) (addrTaken : String → Bool) (fn : Function) (n : ℕ) :
    ∀ {j m}, j + n = fn.instructions.length → Holds hash fn m (fn.cached addrTaken j) →
      ∃ out, cseInsts hash addrTaken m (fn.instructions.drop j) = some out ∧ out.length = n ∧
        ∀ k < n, fn.Outcome addrTaken (j + k) (out.getD k {}) := by
  induction n with
  | zero =>
    intro j m hj _
    rw [drop_eq_nil_of_le (by omega)]
    exact ⟨[], rfl, rfl, by simp⟩
  | succ n ih =>
    intro j m hj h
    obtain ⟨m', i, hstep, h', houtcome⟩ := cseInst_spec h
    obtain ⟨out, hout, hlen, hrest⟩ := ih (j := j + 1) (by omega) h'
    rw [drop_insn fn (by omega)]
    refine ⟨i :: out, ?_, by rw [length_cons, hlen], fun k hk => ?_⟩
    · unfold cseInsts
      simp only [hstep, bind_some, hout, map_some]
    · rcases k with _ | k
      · exact houtcome
      · have := hrest k (by omega)
        rwa [show j + 1 + k = j + (k + 1) by omega] at this

/-- The pass returns, and its output differs from its input in the reuses. -/
theorem cse_outcome (hash : String → UInt64) (aliasGlobals : List String) (fn : Function) :
    ∃ insts, irCommonSubexpressionEliminationPass hash aliasGlobals fn =
        some { fn with instructions := insts } ∧
      insts.length = fn.instructions.length ∧
      ∀ j < fn.instructions.length, fn.Outcome (fn.addrTaken aliasGlobals) j (insts.getD j {}) := by
  obtain ⟨out, hout, hlen, hrest⟩ := cseInsts_spec hash
    (fn.addrTaken aliasGlobals) fn fn.instructions.length (j := 0) (m := {}) (by omega) (by
      refine ⟨ExprMap.tableOk_empty, fun e => ⟨?_, ?_⟩⟩
      · rintro ⟨h, -⟩
        cases h
      · rintro ⟨k, hk, -⟩
        cases hk)
  rw [drop_zero] at hout
  refine ⟨out, ?_, hlen, fun j hj => by simpa using hrest j hj⟩
  unfold irCommonSubexpressionEliminationPass
  rw [hout, map_some]

end Mettle.Ir

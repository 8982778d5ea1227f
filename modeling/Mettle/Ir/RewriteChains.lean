import Mettle.Ir.RewriteIdentities
import Mettle.Ir.CoalesceSound

/-!
# Chains of constants keep their values

Between the producer and the use of a chain the temporary holds what the producer computes from its
operand, as long as neither is written in between; the merged operation then gives the word of the two
operations one after the other (`constChains_valid`). `ChainSite.Safe` is what the scan between the two
should make sure of and does not.
-/

open List Option
open BitVec hiding not_not not_or

namespace Mettle.Ir

open State

/-! ## The table -/

/-- What a rule promises of its operators. -/
structure ConstChainRule.Valid (rule : ConstChainRule) : Prop where
  value : ∀ u v x cp cu c, rule.combineConstants cp cu = some c →
    (rule.combine = .shift → cp.toInt + cu.toInt < 2 ^ 63) → (rule.resultOp = ">>" → u = v) →
    ∃ m r, binaryInt rule.producerOp u x cp = some (.ofInt m) ∧
      binaryInt rule.useOp v m cu = some (.ofInt r) ∧ binaryInt rule.resultOp v x c = some (.ofInt r)
  producer_comm : rule.producerConstEither = true → ∀ u x y,
    binaryInt rule.producerOp u x y = binaryInt rule.producerOp u y x
  use_comm : rule.useConstEither = true → ∀ u x y, binaryInt rule.useOp u x y = binaryInt rule.useOp u y x

/-- Shift counts that are merged are small. -/
theorem shift_counts {cp cu : BitVec 64} (hp : 0 ≤ cp.toInt) (hu : 0 ≤ cu.toInt)
    (hsum : cp.toInt + cu.toInt < 2 ^ 63) (hlimit : (cp + cu).toInt < 32) :
    cp.toNat % 64 + cu.toNat % 64 = (cp + cu).toNat % 64 := by
  have hcp := Lib.toNat_of_nonneg hp
  have hcu := Lib.toNat_of_nonneg hu
  have hadd : (cp + cu).toNat = cp.toNat + cu.toNat := by
    rw [toNat_add]
    omega
  have hint : (cp + cu).toInt = (cp + cu).toNat := by
    apply toInt_eq_toNat_of_lt
    omega
  omega

/-- Two shifts to the left are one by the sum. -/
theorem shl_chain_valid : ConstChainRule.Valid ⟨"<<", "<<", "<<", .shift, false, false, 0, 0⟩ where
  value := by
    intro u v x cp cu c hc hsum _
    simp only [ConstChainRule.combineConstants] at hc
    split at hc
    · cases hc
    rename_i hcond
    cases hc
    simp only [not_or, Bool.not_eq_true, BitVec.slt, BitVec.sle, decide_eq_false_iff_not, not_lt, not_le]
      at hcond
    have hcount := shift_counts hcond.1 hcond.2.1 (hsum rfl) hcond.2.2
    refine ⟨x <<< (cp.toNat % 64), _, rfl, rfl, ?_⟩
    show some (Value.ofInt (x <<< ((cp + cu).toNat % 64))) = _
    rw [← hcount, shiftLeft_add]
  producer_comm := fun h => by cases h
  use_comm := fun h => by cases h

/-- So are two to the right, with the signedness of both. -/
theorem shr_chain_valid : ConstChainRule.Valid ⟨">>", ">>", ">>", .shift, false, false, 0, 0⟩ where
  value := by
    intro u v x cp cu c hc hsum hsign
    obtain rfl := hsign rfl
    simp only [ConstChainRule.combineConstants] at hc
    split at hc
    · cases hc
    rename_i hcond
    cases hc
    simp only [not_or, Bool.not_eq_true, BitVec.slt, BitVec.sle, decide_eq_false_iff_not, not_lt, not_le]
      at hcond
    have hcount := shift_counts hcond.1 hcond.2.1 (hsum rfl) hcond.2.2
    refine ⟨_, _, rfl, rfl, ?_⟩
    cases u
    · show some (Value.ofInt (x.sshiftRight ((cp + cu).toNat % 64))) = _
      rw [← hcount, sshiftRight_add]
      rfl
    · show some (Value.ofInt (x >>> ((cp + cu).toNat % 64))) = _
      rw [← hcount, shiftRight_add]
      rfl
  producer_comm := fun h => by cases h
  use_comm := fun h => by cases h

theorem constChains_valid : ∀ rule ∈ constChains, rule.Valid := by
  unfold constChains
  intro rule hrule
  simp only [mem_cons, not_mem_nil, or_false] at hrule
  rcases hrule with rfl | rfl | rfl | rfl | rfl | rfl | rfl | rfl | rfl | rfl
  all_goals
    first
      | exact shl_chain_valid
      | exact shr_chain_valid
      | refine ⟨fun u v x cp cu c hc _ _ => ?_, fun hcomm u x y => ?_, fun hcomm u x y => ?_⟩
        · cases hc
          refine ⟨_, _, rfl, rfl, ?_⟩
          simp only [binaryInt, String.reduceEq, if_false, if_true, some.injEq]
          congr 1
          first | ring | ac_rfl
        · first
            | exact absurd hcomm (by decide)
            | simp [binaryInt, BitVec.add_comm, BitVec.mul_comm, BitVec.and_comm, BitVec.or_comm, BitVec.xor_comm]
        · first
            | exact absurd hcomm (by decide)
            | simp [binaryInt, BitVec.add_comm, BitVec.mul_comm, BitVec.and_comm, BitVec.or_comm, BitVec.xor_comm]

/-! ## A site -/

variable {W : Type} {H : Host W} {fn : Function} {s s' : State W} {i : Inst}

/-- An integer operation with a variable and a constant, the constant on the right or, if the operator
allows it, on the left. -/
structure Inst.IsConstOp (i : Inst) (op : String) (either : Bool) (x : Operand) (c : BitVec 64) : Prop where
  binary : i.op = .binary
  float : i.isFloat = false
  text : i.text = some op
  split : (i.lhs = x ∧ i.rhs.kind = .int ∧ i.rhs.intValue = c) ∨
    (either = true ∧ i.rhs = x ∧ i.lhs.kind = .int ∧ i.lhs.intValue = c)

/-- Such an operation stores a word that has the definedness of the variable. -/
theorem Inst.IsConstOp.exec {op : String} {either : Bool} {x : Operand} {c r : BitVec 64} {v : Value}
    (h : i.IsConstOp op either x c) (hconcat : i.isConcat = false)
    (hcomm : either = true → ∀ u a b, binaryInt op u a b = binaryInt op u b a)
    (hx : s.fetch H x = some v) (hr : binaryInt op i.isUnsigned (H.floats.asInt v) c = some (.ofInt r)) :
    s.exec H fn i = s.storeDest H i.dest { Value.ofInt r with undefined := v.undefined } := by
  have hliteral : ∀ {o : Operand}, o.kind = .int → o.intValue = c → s.fetch H o = some (.ofInt c) := by
    intro o hk hc
    unfold fetch
    rw [hk, hc]
  have htext : i.text.getD "?" = op := by rw [h.text, getD_some]
  rcases h.split with ⟨hlhs, hk, hc⟩ | ⟨heither, hrhs, hk, hc⟩
  · rw [exec_binary_of_fetch h.binary hconcat h.float (hlhs ▸ hx) (hliteral hk hc) (by rw [htext]; exact hr),
      show (Value.ofInt c).undefined = false from rfl, Bool.or_false]
  · rw [exec_binary_of_fetch h.binary hconcat h.float (hliteral hk hc) (hrhs ▸ hx)
        (by rw [htext, hcomm heither]; exact hr),
      show (Value.ofInt c).undefined = false from rfl, Bool.false_or]

namespace Function

/-- What `rw_try_chain_rule` has found at a site. -/
structure ChainSite.Found (fn : Function) (use : ℕ) (site : ChainSite) (rule : ConstChainRule)
    (cp cu : BitVec 64) : Prop where
  mem : rule ∈ constChains
  lt : site.producer < use
  dest : (fn.insn site.producer).dest.kind = .temp ∧ (fn.insn site.producer).dest.name = some site.temp
  labels : ∀ m, site.producer < m → m < use → (fn.insn m).op ≠ .label
  produces : (fn.insn site.producer).IsConstOp rule.producerOp rule.producerConstEither site.x cp
  uses : ∃ t : Operand, t.kind = .temp ∧ t.name = some site.temp ∧
    (fn.insn use).IsConstOp rule.useOp rule.useConstEither t cu
  op : site.op = rule.resultOp
  value : rule.combineConstants cp cu = some site.value
  apart : ¬ (site.x.kind = .temp ∧ site.x.name = some site.temp)
  unchanged : fn.rwVarUnchangedBetween site.producer use site.x = true

/-- A site that the pass finds is one of a rule of the table. -/
theorem chainSite_found {use : ℕ} {site : ChainSite} (h : fn.chainSite use = some site) :
    ∃ rule cp cu, ChainSite.Found fn use site rule cp cu := by
  unfold chainSite at h
  simp only at h
  split at h
  · cases h
  rename_i hbinary
  simp only [not_or, not_not, Bool.not_eq_true] at hbinary
  obtain ⟨rule, hmem, hrule⟩ := List.exists_of_findSome?_eq_some h
  simp only [tryChainRule, bind_eq_bind, bind_eq_some_iff, guard_eq_some', exists_const,
    some.injEq, Prod.exists] at hrule
  obtain ⟨htext, temp, cu, huse, producer, hfind, x, cp, hsplit, -, value, hvalue, -, hapart, hbetween, rfl⟩ := hrule
  obtain ⟨hlt, hkind, hdest, hlabels⟩ := findTempProducer_spec hfind
  refine ⟨rule, cp, cu, hmem, hlt, ⟨hkind, hdest⟩, hlabels, ?_, ?_, rfl, hvalue, ?_, hbetween⟩
  -- the producer, whose constant may stand on either side
  · unfold Inst.rwSplitVarConst at hsplit
    split at hsplit
    · cases hsplit
    rename_i hop
    simp only [not_or, not_not, Bool.not_eq_true] at hop
    refine ⟨hop.1, hop.2.1, hop.2.2, ?_⟩
    split at hsplit
    · rename_i hsides
      cases hsplit
      exact Or.inl ⟨rfl, hsides.1, rfl⟩
    · split at hsplit
      · rename_i hsides
        cases hsplit
        exact Or.inr ⟨hsides.1, rfl, hsides.2.1, rfl⟩
      · cases hsplit
  -- the use
  · unfold Inst.rwSplitUse at huse
    split at huse
    · rename_i hsides
      obtain ⟨name, hn, heq⟩ := map_eq_some_iff.mp huse
      cases heq
      rw [Operand.isTemp, decide_eq_true_eq] at hsides
      exact ⟨(fn.insn use).lhs, hsides.1.1, hn, hbinary.1, hbinary.2, htext, Or.inl ⟨rfl, hsides.2, rfl⟩⟩
    · split at huse
      · rename_i hsides
        obtain ⟨name, hn, heq⟩ := map_eq_some_iff.mp huse
        cases heq
        rw [Operand.isTemp, decide_eq_true_eq] at hsides
        exact ⟨(fn.insn use).rhs, hsides.2.1.1, hn, hbinary.1, hbinary.2, htext,
          Or.inr ⟨hsides.1, rfl, hsides.2.2, rfl⟩⟩
      · cases huse
  · rintro ⟨hk, hn⟩
    exact hapart ⟨hkind.trans hk.symm, hdest.trans hn.symm⟩

/-- What the code between the producer and the use has to leave alone, and what the two instructions have
to agree on: the temporary and the operand are written by no instruction, whether as a destination or
otherwise; no kernel reaches the operand through memory; nothing is a string; a right shift has the same
sign at both ends, and shift counts do not wrap around. -/
structure ChainSite.Safe (escapes : String → Bool) (fn : Function) (use : ℕ) (site : ChainSite) : Prop where
  temp : ∀ j, site.producer < j → j < use → (fn.insn j).writesName site.temp = false
  x : ∀ j, site.producer < j → j < use → ∀ y, site.x.var = some y → (fn.insn j).writesName y = false
  memory : ∀ j, site.producer < j → j < use → (fn.insn j).op.isKernel = true →
    site.x.isAliasable escapes = false
  strings : ∀ j, j = site.producer ∨ j = use → (fn.insn j).valueType.any (fun t => t.kind = .string) = false
  sign : site.op = ">>" → (fn.insn site.producer).isUnsigned = (fn.insn use).isUnsigned
  count : site.op = "<<" ∨ site.op = ">>" →
    (fn.insn site.producer).rhs.intValue.toInt + (fn.insn use).rhs.intValue.toInt < 2 ^ 63

/-- The temporary holds what the producer computes from the operand. -/
def ChainSite.Carried (H : Host W) (fn : Function) (site : ChainSite) (rule : ConstChainRule)
    (cp : BitVec 64) (s : State W) : Prop :=
  ∃ v m, s.fetch H site.x = some v ∧
    binaryInt rule.producerOp (fn.insn site.producer).isUnsigned (H.floats.asInt v) cp = some (.ofInt m) ∧
    s.fetch H (.ofTemp site.temp) = some { Value.ofInt m with undefined := v.undefined }

namespace ChainSite

variable {use : ℕ} {site : ChainSite} {rule : ConstChainRule} {cp cu : BitVec 64} {escapes : String → Bool}

/-- What is no string is not concatenated. -/
theorem not_concat (h : i.valueType.any (fun t => t.kind = .string) = false) : i.isConcat = false := by
  simp only [Inst.isConcat, decide_eq_false_iff_not]
  rintro ⟨hstring, -⟩
  rw [h] at hstring
  cases hstring

section

variable (h : Found fn use site rule cp cu)
include h

/-- The words of the producer, of the use and of the merged operation. -/
theorem Found.words (hsafe : site.Safe escapes fn use) (x : BitVec 64) :
    ∃ m r, binaryInt rule.producerOp (fn.insn site.producer).isUnsigned x cp = some (.ofInt m) ∧
      binaryInt rule.useOp (fn.insn use).isUnsigned m cu = some (.ofInt r) ∧
      binaryInt site.op (fn.insn use).isUnsigned x site.value = some (.ofInt r) := by
  rw [h.op]
  refine (constChains_valid rule h.mem).value _ _ x cp cu site.value h.value (fun hshift => ?_)
    fun hop => hsafe.sign (h.op.trans hop)
  have hrule : (rule.resultOp = "<<" ∨ rule.resultOp = ">>") ∧ rule.producerConstEither = false ∧
      rule.useConstEither = false := by
    have hmem := h.mem
    have hall : ∀ rule ∈ constChains, rule.combine = .shift → (rule.resultOp = "<<" ∨ rule.resultOp = ">>") ∧
      rule.producerConstEither = false ∧ rule.useConstEither = false := by decide
    exact hall rule hmem hshift
  have hcount := hsafe.count (by rw [h.op]; exact hrule.1)
  obtain ⟨t, -, -, huse⟩ := h.uses
  have hcp : (fn.insn site.producer).rhs.intValue = cp := by
    rcases h.produces.split with ⟨-, -, hc⟩ | ⟨heither, -⟩
    · exact hc
    · rw [hrule.2.1] at heither
      cases heither
  have hcu : (fn.insn use).rhs.intValue = cu := by
    rcases huse.split with ⟨-, -, hc⟩ | ⟨heither, -⟩
    · exact hc
    · rw [hrule.2.2] at heither
      cases heither
  rwa [hcp, hcu] at hcount

/-- The variable of the chain is read by its first instruction. -/
theorem Found.x_operand : site.x ∈ (fn.insn site.producer).operands ∧ site.x ∈ (fn.insn site.producer).sources := by
  unfold Inst.operands Inst.sources
  rw [h.produces.binary]
  rcases h.produces.split with ⟨hx, -⟩ | ⟨-, hx, -⟩ <;> simp [← hx]

/-- The operand is not the temporary. -/
theorem Found.x_ne (htemp : fn.OnlyTemp site.temp) {y : String} (hy : site.x.var = some y) : y ≠ site.temp := by
  rintro rfl
  unfold Operand.var at hy
  split at hy
  · rename_i hkind
    rcases hkind with hk | hk
    · exact h.apart ⟨hk, hy⟩
    · exact htemp.symbol _ _ h.x_operand.1 hk hy
  · cases hy

/-- The producer starts to carry. -/
theorem Found.carried_producer (hsafe : site.Safe escapes fn use) (htemp : fn.OnlyTemp site.temp)
    (hshape : Var.SameShape none (s.env site.temp)) (hexec : s.exec H fn (fn.insn site.producer) = some s') :
    Carried H fn site rule cp s' := by
  have hconcat := not_concat (hsafe.strings _ (Or.inl rfl))
  obtain ⟨v, hv⟩ : ∃ v, s.fetch H site.x = some v := by
    obtain ⟨a, b, ha, hb⟩ := fetch_of_exec_binary h.produces.binary hexec
    rcases h.produces.split with ⟨hx, -⟩ | ⟨-, hx, -⟩
    · exact ⟨a, hx ▸ ha⟩
    · exact ⟨b, hx ▸ hb⟩
  obtain ⟨m, r, hm, -, -⟩ := h.words hsafe (H.floats.asInt v)
  rw [h.produces.exec hconcat (constChains_valid rule h.mem).producer_comm hv hm] at hexec
  refine ⟨v, m, ?_, hm, ?_⟩
  · rw [← hv]
    exact fetch_of_storeDest_temp h.dest.1 hexec fun y hy hd => h.x_ne htemp hy
      (some.inj (hd.symm.trans (by simp [Operand.var, h.dest])))
  · rw [fetch_congr (b := (fn.insn site.producer).dest) h.dest.1.symm h.dest.2.symm (Or.inl rfl)]
    exact fetch_storeDest_temp h.dest.1 h.dest.2 hshape hexec

end

/-- An instruction that the scan passes keeps the operand. -/
theorem Found.same_x (hlaw : H.Lawful escapes) (h : Found fn use site rule cp cu)
    (hsafe : site.Safe escapes fn use) {j : ℕ} (hp : site.producer < j) (hj : j < use)
    (hlen : use < fn.instructions.length) (hexec : s.exec H fn (fn.insn j) = some s') : Same H s s' site.x := by
  by_cases hk : site.x.kind = .symbol
  · -- calls and stores are among the instructions that the scan stops at
    have hscan : ¬ rwChanges site.x (fn.insn j) = true ∨ (fn.insn j).op = .nop := by
      have hall := h.unchanged
      unfold rwVarUnchangedBetween at hall
      rw [List.all_eq_true] at hall
      have := hall (fn.insn j) (insn_mem_slice (by omega) hj (by omega))
      rw [decide_eq_true_eq] at this
      exact this.symm
    have hop : (fn.insn j).op ∉ ([.call, .callIndirect, .store, .inlineAsm] : List Opcode) := by
      intro hmem
      rcases hscan with hscan | hnop
      · refine hscan ?_
        unfold rwChanges
        rw [decide_eq_true_eq]
        exact Or.inr ⟨hk, hmem⟩
      · rw [hnop] at hmem
        revert hmem
        decide
    simp only [mem_cons, not_mem_nil, or_false, not_or] at hop
    refine exec_same hlaw hexec ⟨hop.1, hop.2.1⟩ (hsafe.x j hp hj) fun hmem => ?_
    rcases hmem with hstore | hkernel
    · exact absurd hstore hop.2.2.1
    · exact hsafe.memory j hp hj hkernel
  · intro y hy
    exact ⟨exec_env hexec (hsafe.x j hp hj y hy), fun hsym => absurd hsym hk⟩

/-- Between the two instructions every other one keeps the values they work with. -/
theorem Found.carried_exec (hlaw : H.Lawful escapes) (h : Found fn use site rule cp cu)
    (hsafe : site.Safe escapes fn use) {j : ℕ} (hp : site.producer < j) (hj : j < use)
    (hlen : use < fn.instructions.length) (hexec : s.exec H fn (fn.insn j) = some s')
    (hs : Carried H fn site rule cp s) : Carried H fn site rule cp s' := by
  obtain ⟨v, m, hv, hm, ht⟩ := hs
  have hsame : Same H s s' (.ofTemp site.temp) := by
    intro y hy
    obtain rfl : site.temp = y := by simpa [Operand.var, Operand.ofTemp] using hy
    exact ⟨exec_env hexec (hsafe.temp j hp hj), fun hsym => by cases hsym⟩
  refine ⟨v, m, ?_, hm, ?_⟩
  · rw [fetch_same (h.same_x hlaw hsafe hp hj hlen hexec), hv]
  · rw [fetch_same hsame, ht]

/-- Where the temporary is carried, the merged operation does what the use does. -/
theorem Found.exec_use (h : Found fn use site rule cp cu) (hsafe : site.Safe escapes fn use)
    (hs : Carried H fn site rule cp s) :
    s.exec H fn ((fn.insn use).rwToBinary site.x site.op site.value) = s.exec H fn (fn.insn use) := by
  obtain ⟨v, m, hv, hm, ht⟩ := hs
  obtain ⟨m', r, hm', hr, hmerged⟩ := h.words hsafe (H.floats.asInt v)
  rw [hm] at hm'
  obtain rfl : m = m' := congrArg Value.i (some.inj hm')
  obtain ⟨t, hk, hn, huse⟩ := h.uses
  have hstring := hsafe.strings use (Or.inr rfl)
  have hmergedOp : ((fn.insn use).rwToBinary site.x site.op site.value).IsConstOp site.op false site.x
      site.value := ⟨rfl, rfl, rfl, Or.inl ⟨rfl, rfl, rfl⟩⟩
  have hmergedConcat : ((fn.insn use).rwToBinary site.x site.op site.value).isConcat = false :=
    not_concat hstring
  have htemp : s.fetch H t = some { Value.ofInt m with undefined := v.undefined } := by
    rw [fetch_congr (b := .ofTemp site.temp) hk hn (Or.inl hk)]
    exact ht
  rw [hmergedOp.exec hmergedConcat (fun hcomm => by cases hcomm) hv hmerged,
    huse.exec (not_concat hstring) (constChains_valid rule h.mem).use_comm htemp hr]
  rfl

/-! ## Runs -/

/-- What holds along the run: the temporary has no width, and it is carried between the producer and the
use. -/
structure Along (H : Host W) (fn : Function) (use : ℕ) (site : ChainSite) (rule : ConstChainRule)
    (cp : BitVec 64) (pc : ℕ) (s : State W) : Prop where
  shape : Var.SameShape none (s.env site.temp)
  carried : site.producer < pc → pc ≤ use → Carried H fn site rule cp s

/-- So does every step on the way. -/
theorem Found.along_step (hlaw : H.Lawful escapes) (h : Found fn use site rule cp cu)
    (hsafe : site.Safe escapes fn use) (htemp : fn.OnlyTemp site.temp) (hlen : use < fn.instructions.length)
    {pc pc' : ℕ} (hs : Along H fn use site rule cp pc s) (hstep : step H fn (.at pc s) = some (.at pc' s')) :
    Along H fn use site rule cp pc' s' := by
  have huse : (fn.insn use).op = .binary := by
    obtain ⟨t, -, -, hop⟩ := h.uses
    exact hop.binary
  obtain ⟨-, ⟨rfl, hfind, -⟩ | ⟨rfl, rfl, hop⟩ | ⟨hexec, rfl, -⟩⟩ := step_cases hstep
  · -- no label lies between the producer and the use
    refine ⟨hs.shape, fun hp hle => ?_⟩
    have hlabel := (findLabel_op hfind).2.1
    rcases hle.eq_or_lt with rfl | hlt
    · rw [huse] at hlabel
      cases hlabel
    · exact absurd hlabel (h.labels pc' hp hlt)
  · refine ⟨hs.shape, fun hp hle => ?_⟩
    rcases (Nat.lt_succ_iff.mp hp).eq_or_lt with rfl | hlt
    · rw [h.produces.binary] at hop
      rcases hop with hop | hop <;> cases hop
    · exact hs.carried hlt (by omega)
  · refine ⟨htemp.declare pc hexec hs.shape, fun hp hle => ?_⟩
    rcases (Nat.lt_succ_iff.mp hp).eq_or_lt with rfl | hlt
    · exact h.carried_producer hsafe htemp hs.shape hexec
    · exact h.carried_exec hlaw hsafe hlt hle hlen hexec (hs.carried hlt (by omega))

/-- Labels and declarations stay where they were. -/
theorem Found.skeleton (h : Found fn use site rule cp cu) (hlen : use < fn.instructions.length) :
    SameSkeleton fn (fn.setInsn use ((fn.insn use).rwToBinary site.x site.op site.value)) := by
  have huse : (fn.insn use).op = .binary := by
    obtain ⟨t, -, -, hop⟩ := h.uses
    exact hop.binary
  apply SameSkeleton.setInsn hlen
  · rw [huse]
    decide
  · constructor <;> intro h <;> cases h

/-- The step after the rewrite is the step before it. -/
theorem Found.step_eq (h : Found fn use site rule cp cu) (hsafe : site.Safe escapes fn use)
    (hlen : use < fn.instructions.length) {pc : ℕ} (hs : Along H fn use site rule cp pc s) :
    step H (fn.setInsn use ((fn.insn use).rwToBinary site.x site.op site.value)) (.at pc s) =
      step H fn (.at pc s) := by
  have hskel := h.skeleton hlen
  by_cases hpc : pc = use
  · subst hpc
    have hop : (fn.insn pc).op = .binary := by
      obtain ⟨t, -, -, hop⟩ := h.uses
      exact hop.binary
    have hinsn := insn_setInsn fn hlen pc ((fn.insn pc).rwToBinary site.x site.op site.value)
    rw [if_pos rfl] at hinsn
    rw [step_exec (by rw [hskel.length]; exact hlen) (by rw [hinsn]; rfl), step_exec hlen (by rw [hop]; rfl),
      hinsn, hskel.exec, h.exec_use hsafe (hs.carried h.lt le_rfl)]
  · apply hskel.step_eq
    rw [insn_setInsn fn hlen, if_neg hpc]

/-- A chain that is safe to merge leaves every run as it is. -/
theorem Found.stepN_eq (hlaw : H.Lawful escapes) (h : Found fn use site rule cp cu)
    (hsafe : site.Safe escapes fn use) (htemp : fn.OnlyTemp site.temp) (hlen : use < fn.instructions.length)
    (n : ℕ) {pc : ℕ} {s : State W} (hs : Along H fn use site rule cp pc s) :
    stepN H (fn.setInsn use ((fn.insn use).rwToBinary site.x site.op site.value)) n (.at pc s) =
      stepN H fn n (.at pc s) :=
  stepN_congr (fun hs => h.step_eq hsafe hlen hs) (fun hs => h.along_step hlaw hsafe htemp hlen hs) n hs

end ChainSite

/-! ## The pass -/

/-- Every merge the pass makes is safe, in the function as it is when the pass gets there. -/
def ReassociateSafe (escapes : String → Bool) (fn : Function) : Prop :=
  ∀ k < fn.instructions.length, ∀ site, (fn.reassociateUpTo k).chainSite k = some site →
    site.Safe escapes (fn.reassociateUpTo k) k

/-- One instruction more. -/
theorem reassociateUpTo_succ (k : ℕ) : fn.reassociateUpTo (k + 1) = (fn.reassociateUpTo k).reassociateAt k := by
  unfold reassociateUpTo
  rw [range_succ, foldl_append, foldl_cons, foldl_nil]

/-- What the rounds keep. -/
structure Reassociated (H : Host W) (s : State W) (fn out : Function) : Prop where
  length : out.instructions.length = fn.instructions.length
  entry : out.Entry s
  separate : out.Separate
  runs : ∀ n, stepN H out n (.at 0 s) = stepN H fn n (.at 0 s)

/-- Temporaries stay separate from symbols. -/
theorem ChainSite.Found.separate {use : ℕ} {site : ChainSite} {rule : ConstChainRule} {cp cu : BitVec 64}
    (h : ChainSite.Found fn use site rule cp cu) (hlen : use < fn.instructions.length) (hsep : fn.Separate) :
    (fn.setInsn use ((fn.insn use).rwToBinary site.x site.op site.value)).Separate := by
  refine hsep.of_operands rfl fun j o ho hk => ?_
  rw [insn_setInsn fn hlen] at ho
  split at ho
  · simp only [Inst.operands, Inst.rwToBinary, mem_cons, not_mem_nil, or_false] at ho
    rcases ho with rfl | rfl | rfl
    · exact ⟨use, by simp [Inst.operands]⟩
    · exact ⟨site.producer, h.x_operand.1⟩
    · rcases hk with hk | hk <;> cases hk
  · exact ⟨j, ho⟩

/-- After any number of instructions the runs are the same. -/
theorem reassociateUpTo_spec {escapes : String → Bool} (hlaw : H.Lawful escapes) {s : State W}
    (hentry : fn.Entry s) (hsep : fn.Separate) (hsafe : fn.ReassociateSafe escapes) {k : ℕ}
    (hk : k ≤ fn.instructions.length) : Reassociated H s fn (fn.reassociateUpTo k) := by
  induction k with
  | zero => exact ⟨rfl, hentry, hsep, fun _ => rfl⟩
  | succ k ih =>
    have h := ih (by omega)
    have hlen : k < (fn.reassociateUpTo k).instructions.length := by
      rw [h.length]
      omega
    rw [reassociateUpTo_succ]
    unfold reassociateAt
    cases hsite : (fn.reassociateUpTo k).chainSite k with
    | none => exact h
    | some site =>
      obtain ⟨rule, cp, cu, hfound⟩ := chainSite_found hsite
      have htemp : (fn.reassociateUpTo k).OnlyTemp site.temp :=
        h.separate site.producer _ (by simp [Inst.operands]) hfound.dest.1 site.temp hfound.dest.2
      refine ⟨(length_setInsn _ _ _).trans h.length, h.entry, hfound.separate hlen h.separate, fun n => ?_⟩
      rw [← h.runs]
      refine hfound.stepN_eq hlaw (hsafe k (by omega) site hsite) htemp hlen n ⟨?_, fun hp => by omega⟩
      exact htemp.shape_entry h.entry

end Function

/-- A rewritten instruction stores the word it stored before, and merged chains leave every run as it
is. -/
theorem rewrites_preserve {escapes : String → Bool} (hlaw : H.Lawful escapes) (fn : Function) (s₀ : State W)
    (hentry : fn.Entry s₀) (hsep : fn.Separate) (hsafe : fn.ReassociateSafe escapes) :
    (∀ (s : State W) (i : Inst) (nonneg : Operand → Bool) (a b : BitVec 64), i.isConcat = false →
      IntegerOperands H s i a b → (nonneg i.lhs = true → 0 ≤ a.toInt) → (nonneg i.rhs = true → 0 ≤ b.toInt) →
      i.applyBinaryIdentities nonneg = i ∨ StoresSame H fn s i (i.applyBinaryIdentities nonneg)) ∧
      ∀ n, stepN H fn.reassociateConstants n (.at 0 s₀) = stepN H fn n (.at 0 s₀) :=
  ⟨fun _ _ _ _ _ hconcat hints hlhs hrhs => applyBinaryIdentities_stores hconcat hints hlhs hrhs,
    (Function.reassociateUpTo_spec hlaw hentry hsep hsafe le_rfl).runs⟩

/-! ## Two chains -/

/-- One sum right after the other. -/
def twoSums : Function where
  parameterNames := ["a"]
  parameterTypes := [some "int64"]
  instructions := [
    { op := .binary, dest := .ofTemp "t", lhs := .ofSymbol "a", rhs := .ofInt 1, text := some "+" },
    { op := .binary, dest := .ofTemp "y", lhs := .ofTemp "t", rhs := .ofInt 2, text := some "+" },
    { op := .return, lhs := .ofTemp "y" }]

/-- The parameters are zero, one and two. -/
def counting : State Unit where
  env := fun name =>
    if name = "a" then some { value := .ofInt 0, size := 8 }
    else if name = "b" then some { value := .ofInt 1, size := 8 }
    else if name = "n" then some { value := .ofInt 2, size := 8 }
    else none
  world := ()

/-- The frame at the entry of `twoSums`. -/
def atZero : State Unit where
  env := fun name => if name = "a" then some { value := .ofInt 0, size := 8 } else none
  world := ()

theorem twoSums_entry : twoSums.Entry atZero := by
  intro x var hvar
  simp only [atZero] at hvar
  split at hvar
  · rename_i hx
    cases hvar
    exact ⟨0, by rw [hx]; rfl, rfl⟩
  · cases hvar

theorem twoSums_safe : twoSums.ReassociateSafe fun _ => false := by
  intro k hk site hsite
  match k, hk with
  | 0, _ =>
    cases hsite
  | 1, _ =>
    cases hsite
    exact {
      temp := fun j hp hj => by omega
      x := fun j hp hj => by omega
      memory := fun j hp hj => by omega
      strings := by
        rintro j (rfl | rfl) <;> decide
      sign := fun h => absurd h (by decide)
      count := fun h => absurd h (by decide) }
  | 2, _ =>
    cases hsite

theorem rewrites_preserve_twoSums :
    twoSums.reassociateConstants.insn 1 =
        { op := .binary, dest := .ofTemp "y", lhs := .ofSymbol "a", rhs := .ofInt 3, text := some "+" } ∧
      stepN Host.scalars twoSums.reassociateConstants 3 (.at 0 atZero) =
        stepN Host.scalars twoSums 3 (.at 0 atZero) :=
  ⟨by decide, (rewrites_preserve (Host.scalars_lawful fun _ => false) twoSums atZero twoSums_entry
    (Function.separate_of_names (by simp [twoSums, Inst.operands, Operand.ofTemp, Operand.ofSymbol, Operand.ofInt]))
    twoSums_safe).2 3⟩

/-- A rotation of `a` and `b` between the two sums. -/
def rotates : Function where
  parameterNames := ["a", "b", "n"]
  parameterTypes := [some "int64", some "int64", some "int64"]
  instructions := [
    { op := .binary, dest := .ofTemp "t", lhs := .ofSymbol "a", rhs := .ofInt 1, text := some "+" },
    { op := .rotateAdd, dest := .ofSymbol "n", lhs := .ofSymbol "a", rhs := .ofSymbol "b", text := some "+" },
    { op := .binary, dest := .ofTemp "y", lhs := .ofTemp "t", rhs := .ofInt 2, text := some "+" },
    { op := .return, lhs := .ofTemp "y" }]

theorem rotates_entry : rotates.Entry counting := by
  intro x var hvar
  simp only [counting] at hvar
  split at hvar
  · rename_i hx
    cases hvar
    exact ⟨0, by rw [hx]; rfl, rfl⟩
  split at hvar
  · rename_i hx
    cases hvar
    exact ⟨1, by rw [hx]; rfl, rfl⟩
  split at hvar
  · rename_i hx
    cases hvar
    exact ⟨2, by rw [hx]; rfl, rfl⟩
  · cases hvar

/-- The rotation writes `a`, which is its left operand: the merged sum reads the new value. -/
theorem reassociate_reads_rotated : ¬ ∀ (fn : Function) (s : State Unit), fn.Entry s → fn.Separate →
    ∀ n, stepN Host.scalars fn.reassociateConstants n (.at 0 s) = stepN Host.scalars fn n (.at 0 s) := by
  intro h
  have hruns := h rotates counting rotates_entry
    (Function.separate_of_names (by simp [rotates, Inst.operands, Operand.ofTemp, Operand.ofSymbol, Operand.ofInt])) 4
  have hbefore : (stepN Host.scalars rotates 4 (.at 0 counting)).bind Config.value = some (.ofInt 3) := by
    decide
  have hafter : (stepN Host.scalars rotates.reassociateConstants 4 (.at 0 counting)).bind Config.value =
      some (.ofInt 4) := by
    decide
  rw [hruns, hbefore] at hafter
  revert hafter
  decide

end Mettle.Ir

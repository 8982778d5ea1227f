import Mettle.Ir.ValueRangeSound

/-!
# Remainders that become masks

The mask that replaces a remainder by a power of two is zero exactly when the remainder is, also in a
narrow variable, and the zero test does the same on either. With this, what all the rewrites of
`ir_optimize_value_range.c` keep.
-/

open Option hiding or_self
open BitVec hiding not_not not_or or_self

namespace Mettle.Ir

open State

section Operands

variable {W : Type} {H : Host W} {fn : Function} {s : State W} {i : Inst}

/-- What a variable keeps of a word is zero when enough bits of the word are. -/
theorem narrowInt_eq_zero_iff (size : ℤ) (u : Bool) :
    ∃ b ≤ 64, ∀ x, narrowInt x size u = 0 ↔ 2 ^ b ∣ x.toNat := by
  have hbits : ∀ {k : ℕ}, k ≤ 64 → ∀ x : BitVec 64,
      (if u then (x.truncate k).zeroExtend 64 else (x.truncate k).signExtend 64) = 0 ↔ 2 ^ k ∣ x.toNat := by
    intro k hk x
    cases u
    · exact Lib.signExtend_truncate_eq_zero_iff hk
    · exact Lib.zeroExtend_truncate_eq_zero_iff hk
  unfold narrowInt
  split
  · exact ⟨8, by omega, hbits (by omega)⟩
  split
  · exact ⟨16, by omega, hbits (by omega)⟩
  split
  · exact ⟨32, by omega, hbits (by omega)⟩
  · exact ⟨64, le_rfl, fun x => Lib.dvd_toNat_iff.symm⟩

/-- Words with the same trailing zeros, as the remainder by a power of two and the mask are. -/
def SameZeros (x x' : BitVec 64) : Prop := ∀ b ≤ 64, 2 ^ b ∣ x'.toNat ↔ 2 ^ b ∣ x.toNat

/-- Words that are zero together are so after they are written to a variable. -/
theorem Var.write_zero_iff {F : FloatOps} (var : Var) {v v' : Value} (hv : v.isFloat = false)
    (hv' : v'.isFloat = false) (h : SameZeros v.i v'.i) :
    (var.write F v').value.i = 0 ↔ (var.write F v).value.i = 0 := by
  unfold Var.write
  simp only [hv, hv', Bool.false_eq_true, not_false_eq_true, true_and, false_and, if_false]
  split
  · obtain ⟨b, hb, hzero⟩ := narrowInt_eq_zero_iff var.size var.isUnsigned
    rw [hzero, hzero]
    exact h b hb
  · rw [← Lib.dvd_toNat_iff, ← Lib.dvd_toNat_iff]
    exact h 64 le_rfl

/-- A write keeps whether the value is a float. -/
theorem Var.write_isFloat {F : FloatOps} (var : Var) (v : Value) : (var.write F v).value.isFloat = v.isFloat := by
  unfold Var.write
  split
  · rfl
  · split <;> rfl

/-- It keeps whether the value is defined. -/
theorem Var.write_undefined {F : FloatOps} (var : Var) (v : Value) :
    (var.write F v).value.undefined = v.undefined := by
  unfold Var.write
  split
  · rfl
  · split <;> rfl

/-- States that differ in one temporary, an integer that is zero in both or in neither. -/
structure ZeroAlike (H : Host W) (t : String) (s s' : State W) : Prop where
  agree : s.AgreeOff (· = t) s'
  words : ∃ v v', s.fetch H (.ofTemp t) = some v ∧ s'.fetch H (.ofTemp t) = some v' ∧ v.isFloat = false ∧
    v'.isFloat = false ∧ v'.undefined = v.undefined ∧ (v'.i = 0 ↔ v.i = 0)

/-- After two writes of a temporary. -/
theorem zeroAlike_storeDest {d : Operand} {t : String} (hkind : d.kind = .temp) (hname : d.name = some t)
    {v v' : Value} (hv : v.isFloat = false) (hv' : v'.isFloat = false) (hundefined : v'.undefined = v.undefined)
    (hzeros : SameZeros v.i v'.i) :
    ∃ s₁ s₁', s.storeDest H d v = some s₁ ∧ s.storeDest H d v' = some s₁' ∧ ZeroAlike H t s₁ s₁' := by
  refine ⟨_, _, storeDest_temp hkind hname v, storeDest_temp hkind hname v', ⟨rfl, fun x hx => ?_, fun x hx => ?_⟩, ?_⟩
  · simp only [Function.update_of_ne hx]
  · obtain rfl : x = t := hx
    simp only [Function.update_self]
    exact ((Var.sameShape_write H.floats (s.env x) v).symm).trans (Var.sameShape_write H.floats (s.env x) v')
  · refine ⟨(((s.env t).getD { value := .poison }).write H.floats v).value,
      (((s.env t).getD { value := .poison }).write H.floats v').value, ?_, ?_, ?_, ?_, ?_, ?_⟩
    · simp [fetch, Operand.ofTemp]
    · simp [fetch, Operand.ofTemp]
    · rw [Var.write_isFloat, hv]
    · rw [Var.write_isFloat, hv']
    · rw [Var.write_undefined, Var.write_undefined, hundefined]
    · exact Var.write_zero_iff _ hv hv' hzeros

/-- The remainder by a power of two and its mask. -/
theorem binaryInt_mask (u : Bool) (x : BitVec 64) {k : ℕ} (hk : k < 63) :
    ∃ r, binaryInt "%" u x (twoPow 64 k) = some (.ofInt r) ∧
      SameZeros r (x &&& (twoPow 64 k - 1)) := by
  simp only [binaryInt, String.reduceEq, if_false, or_true, if_true, twoPow_ne_zero hk, twoPow_ne_neg_one hk,
    and_false]
  cases u
  · exact ⟨_, rfl, fun b hb => (Lib.dvd_srem_twoPow_iff (by omega) hb).symm⟩
  · refine ⟨_, rfl, fun b _ => ?_⟩
    rw [Lib.umod_twoPow (by omega)]

/-- The search finds an instruction before that writes the temporary. -/
theorem vrFindBlockWriter_spec {t : String} {scanned n k : ℕ}
    (h : fn.vrFindBlockWriter t scanned n = some k) :
    k < n ∧ (fn.insn k).dest.kind = .temp ∧ (fn.insn k).dest.name = some t := by
  fun_induction Function.vrFindBlockWriter fn t scanned n with
  | case1 => cases h
  | case2 => cases h
  | case3 scanned n hscan hnop ih =>
    obtain ⟨hlt, hdest⟩ := ih h
    exact ⟨by omega, hdest⟩
  | case4 => cases h
  | case5 scanned n hscan hnop hlabel hwrites =>
    cases h
    exact ⟨Nat.lt_succ_self _, hwrites.1, hwrites.2.1⟩
  | case6 scanned n hscan hnop hlabel hwrites ih =>
    obtain ⟨hlt, hdest⟩ := ih h
    exact ⟨by omega, hdest⟩

/-- A remainder that becomes a mask. -/
structure MaskSite (uses : String → ℕ) (fn : Function) (test producer shift : ℕ) (t : String) : Prop where
  tested : (fn.insn test).vrZeroTestOperand = some t
  used : uses t = 1
  before : producer < test
  inside : producer < fn.instructions.length ∧ test < fn.instructions.length
  dest : (fn.insn producer).dest.kind = .temp ∧ (fn.insn producer).dest.name = some t
  remainder : (fn.insn producer).op = .binary ∧ (fn.insn producer).isFloat = false ∧
    (fn.insn producer).text = some "%" ∧ (fn.insn producer).rhs.kind = .int
  divisor : (fn.insn producer).rhs.intValue = BitVec.twoPow 64 shift
  shift_lt : shift < 63

/-- A site that the pass finds is a remainder whose only use is a zero test. -/
theorem maskSite_spec {uses : String → ℕ} {test producer shift : ℕ}
    (h : fn.maskSite uses test = some (producer, shift)) : ∃ t, MaskSite uses fn test producer shift t := by
  simp only [Function.maskSite, bind_eq_bind, bind_eq_some_iff, guard_eq_some',
    exists_const, some.injEq, Prod.mk.injEq] at h
  obtain ⟨t, htested, hused, producer', hwriter, hremainder, shift', hshift, -, rfl, rfl⟩ := h
  obtain ⟨hlt, hdest⟩ := vrFindBlockWriter_spec hwriter
  obtain ⟨hk, hpow, -⟩ := pow2Shift_spec hshift
  have hinside : test < fn.instructions.length := by
    by_contra hout
    have hnop : fn.insn test = {} := by
      exact List.getD_eq_default _ _ (by omega)
    rw [hnop] at htested
    cases htested
  exact ⟨t, htested, hused, hlt, ⟨by omega, hinside⟩, hdest, hremainder, hpow, hk⟩

/-- Only a remainder by a power of two changes, to the mask; what it writes stays zero or not zero, and its zero test
stores the same value or goes to the same place. -/
structure MasksAlike (H : Host W) (fn out : Function) (t : String) (producer test : ℕ) : Prop where
  remainder : (fn.insn producer).op = .binary ∧ (fn.insn producer).text = some "%"
  mask : ∃ shift < 63, (fn.insn producer).rhs.intValue = twoPow 64 shift ∧
    out.insn producer = (fn.insn producer).toMask shift
  others : ∀ j, j ≠ producer → out.insn j = fn.insn j
  producer : ∀ s, (step H fn (.at producer s)).isSome = true → ∃ s₁ s₁',
    step H fn (.at producer s) = some (.at (producer + 1) s₁) ∧
      step H out (.at producer s) = some (.at (producer + 1) s₁') ∧ ZeroAlike H t s₁ s₁'
  test : ∀ s s', ZeroAlike H t s s' →
    (∃ v, step H fn (.at test s) = (s.storeDest H (fn.insn test).dest v).map (.at (test + 1)) ∧
      step H out (.at test s') = (s'.storeDest H (fn.insn test).dest v).map (.at (test + 1))) ∨
    ∃ target : Option ℕ, step H fn (.at test s) = target.map (.at · s) ∧
      step H out (.at test s') = target.map (.at · s')

/-- The outcome of a comparison with zero. -/
def Inst.zeroTest (i : Inst) (w : Value) : Value :=
  { Value.ofBool (if i.text = some "==" then w.i = 0 else w.i ≠ 0) with undefined := w.undefined }

/-- An integer comparison of the temporary with zero, on either side. -/
structure Inst.ComparesZero (H : Host W) (i : Inst) (t : String) : Prop where
  op : i.op = .binary
  integer : i.isFloat = false
  text : i.text = some "==" ∨ i.text = some "!="
  operands : ∀ (u : State W) w, u.fetch H (.ofTemp t) = some w →
    (u.fetch H i.lhs = some w ∧ u.fetch H i.rhs = some (.ofInt 0)) ∨
      (u.fetch H i.lhs = some (.ofInt 0) ∧ u.fetch H i.rhs = some w)

/-- `==` and `!=` with zero on either side. -/
theorem binaryInt_zeroTest (htext : i.text = some "==" ∨ i.text = some "!=") (u : Bool) (w : Value) :
    binaryInt (i.text.getD "?") u w.i 0 = some { i.zeroTest w with undefined := false } ∧
      binaryInt (i.text.getD "?") u 0 w.i = some { i.zeroTest w with undefined := false } := by
  have hcomm : (0 : BitVec 64) = w.i ↔ w.i = 0 := eq_comm
  rcases htext with htext | htext
  · rw [Inst.zeroTest, htext, if_pos rfl]
    simp only [getD_some, binaryInt, String.reduceEq, or_self, if_true, if_false, hcomm]
    exact ⟨rfl, rfl⟩
  · rw [Inst.zeroTest, htext, if_neg (by decide)]
    simp only [getD_some, binaryInt, String.reduceEq, or_self, if_true, if_false, ne_eq, hcomm]
    exact ⟨rfl, rfl⟩

namespace MaskSite

variable {uses : String → ℕ} {test producer shift : ℕ} {t : String}

section

variable (h : MaskSite uses fn test producer shift t)
include h

/-- The operand of the mask. -/
theorem fetch_mask (s : State W) :
    s.fetch H ((fn.insn producer).toMask shift).rhs = some (.ofInt (twoPow 64 shift - 1)) := by
  have hkind : ((fn.insn producer).toMask shift).rhs.kind = .int := h.remainder.2.2.2
  unfold fetch
  rw [hkind, twoPow_eq]
  rfl

/-- The mask is zero when the remainder is. -/
theorem step_producer (hstep : (step H fn (.at producer s)).isSome = true) :
    ∃ s₁ s₁', step H fn (.at producer s) = some (.at (producer + 1) s₁) ∧
      step H (fn.setInsn producer ((fn.insn producer).toMask shift)) (.at producer s) =
        some (.at (producer + 1) s₁') ∧ ZeroAlike H t s₁ s₁' := by
  obtain ⟨hop, hfloat, htext, hrhs⟩ := h.remainder
  have hop' : ((fn.insn producer).toMask shift).op = .binary := hop
  obtain ⟨c, hc⟩ := isSome_iff_exists.mp hstep
  have hcontrol : (fn.insn producer).op.isControl = false := by rw [hop]; rfl
  rw [step_exec h.inside.1 hcontrol, map_eq_some_iff] at hc
  obtain ⟨t₁, hexec, -⟩ := hc
  obtain ⟨a, b, ha, hb⟩ := fetch_of_exec_binary hop hexec
  obtain rfl : b = .ofInt (twoPow 64 shift) := by
    rw [fetch, hrhs, h.divisor] at hb
    exact (some.inj hb).symm
  obtain ⟨r, hr, hzeros⟩ := binaryInt_mask (fn.insn producer).isUnsigned (H.floats.asInt a) h.shift_lt
  have hbefore := @exec_binary_of_fetch _ H fn s (fn.insn producer) hop (isConcat_of_text htext (by decide)) hfloat
    a _ (.ofInt r) ha hb (by rw [htext]; exact hr)
  have hafter := @exec_binary_of_fetch _ H fn s ((fn.insn producer).toMask shift) hop'
    (isConcat_of_text rfl (by decide)) hfloat a _
    (.ofInt (H.floats.asInt a &&& (twoPow 64 shift - 1))) ha (h.fetch_mask s) rfl
  obtain ⟨s₁, s₁', hs₁, hs₁', halike⟩ := @zeroAlike_storeDest _ H s _ t h.dest.1 h.dest.2
    { Value.ofInt r with undefined := a.undefined || false }
    { Value.ofInt (H.floats.asInt a &&& (twoPow 64 shift - 1)) with undefined := a.undefined || false }
    rfl rfl rfl hzeros
  refine ⟨s₁, s₁', ?_, ?_, halike⟩
  · rw [step_exec h.inside.1 hcontrol, hbefore]
    exact congrArg (Option.map (Config.at (producer + 1))) hs₁
  · rw [step_setInsn h.inside.1 (by rw [hop']; rfl) (by rw [hop']; decide), hafter]
    exact congrArg (Option.map (Config.at (producer + 1))) hs₁'

/-- The function after the change. -/
theorem skeleton : SameSkeleton fn (fn.setInsn producer ((fn.insn producer).toMask shift)) := by
  have hop := h.remainder.1
  have hop' : ((fn.insn producer).toMask shift).op = .binary := hop
  exact .setInsn h.inside.1 (by simp [hop]) (by simp [hop'])

/-- The test stays. -/
theorem insn_test : (fn.setInsn producer ((fn.insn producer).toMask shift)).insn test = fn.insn test := by
  rw [Function.insn_setInsn fn h.inside.1, if_neg (Nat.ne_of_gt h.before)]

/-- A branch on zero sees only whether its operand is zero. -/
theorem step_test_branch {s' : State W} (halike : ZeroAlike H t s s') (hop : (fn.insn test).op = .branchZero)
    (hkind : (fn.insn test).lhs.kind = .temp) (hname : (fn.insn test).lhs.name = some t) :
    ∃ target : Option ℕ, step H fn (.at test s) = target.map (.at · s) ∧
      step H (fn.setInsn producer ((fn.insn producer).toMask shift)) (.at test s') = target.map (.at · s') := by
  obtain ⟨v, v', hv, hv', hvf, hvf', -, hzero⟩ := halike.words
  have hfetch : ∀ u : State W, u.fetch H (fn.insn test).lhs = u.fetch H (.ofTemp t) := fun u =>
    fetch_congr hkind hname (Or.inl hkind)
  have htruth : v'.truth = v.truth := by
    rw [truth_of_word hvf, truth_of_word hvf', Bool.eq_iff_iff, decide_eq_true_eq, decide_eq_true_eq]
    exact not_congr hzero
  have hlen : ¬ fn.instructions.length ≤ test := by
    have := h.inside.2
    omega
  refine ⟨if v.truth then some (test + 1) else fn.findLabel (fn.insn test).text, ?_, ?_⟩
  · simp only [step, if_neg hlen, hop, hfetch, hv, bind_eq_bind, bind_some]
    split <;> rfl
  · simp only [step, h.skeleton.length, if_neg hlen, h.insn_test, hop, hfetch, hv', bind_eq_bind,
      bind_some, h.skeleton.findLabel, htruth]
    split <;> rfl

/-- So does a comparison with zero. -/
theorem step_test_binary {s' : State W} (halike : ZeroAlike H t s s') (hzero : (fn.insn test).ComparesZero H t) :
    ∃ v, step H fn (.at test s) = (s.storeDest H (fn.insn test).dest v).map (.at (test + 1)) ∧
      step H (fn.setInsn producer ((fn.insn producer).toMask shift)) (.at test s') =
        (s'.storeDest H (fn.insn test).dest v).map (.at (test + 1)) := by
  obtain ⟨v, v', hv, hv', hvf, hvf', hundefined, hword⟩ := halike.words
  have hconcat : (fn.insn test).isConcat = false := by
    rcases hzero.text with htext | htext <;> exact isConcat_of_text htext (by decide)
  have hcontrol : (fn.insn test).op.isControl = false := by rw [hzero.op]; rfl
  -- the comparison of a word with zero
  have hexec : ∀ (u : State W) (w : Value), u.fetch H (.ofTemp t) = some w → w.isFloat = false →
      u.exec H fn (fn.insn test) = u.storeDest H (fn.insn test).dest ((fn.insn test).zeroTest w) := by
    intro u w hw hwf
    obtain ⟨hleft, hright⟩ := binaryInt_zeroTest hzero.text (fn.insn test).isUnsigned w
    have hint : H.floats.asInt w = w.i := by simp [FloatOps.asInt, hwf]
    rcases hzero.operands u w hw with ⟨hl, hr⟩ | ⟨hl, hr⟩
    · rw [exec_binary_of_fetch hzero.op hconcat hzero.integer hl hr (by rw [hint]; exact hleft)]
      simp [Inst.zeroTest, Value.ofInt]
    · rw [exec_binary_of_fetch hzero.op hconcat hzero.integer hl hr (by rw [hint]; exact hright)]
      simp [Inst.zeroTest, Value.ofInt]
  refine ⟨(fn.insn test).zeroTest v, ?_, ?_⟩
  · rw [step_exec h.inside.2 hcontrol, hexec s v hv hvf]
  · rw [step_exec (by rw [h.skeleton.length]; exact h.inside.2) (by rw [h.insn_test]; exact hcontrol), h.insn_test,
      h.skeleton.exec, hexec s' v' hv' hvf']
    simp only [Inst.zeroTest, hword, hundefined, ne_eq]

end

end MaskSite

/-- What one round of `ir_remainder_zero_test_to_mask_pass` changes. -/
theorem MaskSite.masksAlike {uses : String → ℕ} {test producer shift : ℕ} {t : String}
    (h : MaskSite uses fn test producer shift t) :
    MasksAlike H fn (fn.setInsn producer ((fn.insn producer).toMask shift)) t producer test where
  remainder := ⟨h.remainder.1, h.remainder.2.2.1⟩
  mask := ⟨shift, h.shift_lt, h.divisor, by rw [Function.insn_setInsn fn h.inside.1, if_pos rfl]⟩
  others := fun j hj => by rw [Function.insn_setInsn fn h.inside.1, if_neg hj]
  producer := fun s hstep => h.step_producer hstep
  test := by
    intro s s' halike
    have htested := h.tested
    unfold Inst.vrZeroTestOperand at htested
    split at htested
    · rename_i hbranch
      exact Or.inr (h.step_test_branch halike hbranch.1 hbranch.2.1 htested)
    split at htested
    · cases htested
    rename_i hcompare
    rw [not_or, not_or, not_not, not_not, Bool.not_eq_true] at hcompare
    refine Or.inl (h.step_test_binary halike ⟨hcompare.1, hcompare.2.1, hcompare.2.2, fun u w hw => ?_⟩)
    -- the test reads the temp of the remainder against a literal zero, on either side
    have htemp : ∀ {o : Operand}, o.isTemp = true → o.name = some t → u.fetch H o = some w := by
      intro o ho hname
      simp only [Operand.isTemp, decide_eq_true_eq] at ho
      rw [← hw]
      exact fetch_congr ho.1 hname (Or.inl ho.1)
    have hzero : ∀ {o : Operand}, o.kind = .int → o.intValue = 0 → u.fetch H o = some (.ofInt 0) := by
      intro o hkind hvalue
      unfold fetch
      rw [hkind, hvalue]
    split at htested
    · rename_i hlhs
      exact Or.inl ⟨htemp hlhs.1 htested, hzero hlhs.2.1 hlhs.2.2⟩
    split at htested
    · rename_i hrhs
      exact Or.inr ⟨hzero hrhs.2.1 hrhs.2.2, htemp hrhs.1 htested⟩
    · cases htested

/-! ## The passes -/

/-- A state in which a run of the function arrives at an instruction. -/
def Function.Arrives (H : Host W) (fn : Function) (start : State W) (pc : ℕ) (s : State W) : Prop :=
  ∃ n, stepN H fn n (.at 0 start) = some (.at pc s)

/-- The intervals are sound whenever a run arrives at the instruction. -/
def SoundAt (H : Host W) (fn : Function) (start : State W) (pc : ℕ) (range : Operand → IntRange) : Prop :=
  ∀ s, fn.Arrives H start pc s → ∀ o, (range o).Sound H s o

/-- The rounds keep how many instructions there are. -/
theorem length_castRounds (oracle : Function → ℕ → Operand → IntRange) (fn : Function) (k : ℕ) :
    (fn.castRounds oracle k).instructions.length = fn.instructions.length := by
  induction k with
  | zero => rfl
  | succ k ih =>
    rw [← ih]
    exact Function.length_setInsn _ _ _

/-- Every rewrite from sound intervals, whenever a run arrives at the instruction and executes it, and every
remainder that becomes a mask. -/
theorem valueRange_rewrites_alike (H : Host W) (fn : Function) (start : State W) :
    (∀ pc range, pc < fn.instructions.length → SoundAt H fn start pc range →
      ∀ s, fn.Arrives H start pc s → (step H fn (.at pc s)).isSome = true →
        StepsAlike H fn (fn.setInsn pc ((fn.insn pc).valueRangeSimplify range)) pc s) ∧
    (∀ oracle k, k < fn.instructions.length →
      SoundAt H (fn.castRounds oracle k) start k (oracle (fn.castRounds oracle k) k) →
      ∀ s, (fn.castRounds oracle k).Arrives H start k s →
        (step H (fn.castRounds oracle k) (.at k s)).isSome = true →
        StepsAlike H (fn.castRounds oracle k) (fn.castRounds oracle (k + 1)) k s) ∧
    ∀ k, fn.maskRounds (k + 1) = fn.maskRounds k ∨
      ∃ producer t, ((fn.maskRounds k).insn k).vrZeroTestOperand = some t ∧ fn.tempUseCount t = 1 ∧
        MasksAlike H (fn.maskRounds k) (fn.maskRounds (k + 1)) t producer k := by
  refine ⟨fun pc range hpc hsound s hs hstep => ?_, fun oracle k hk hsound s hs hstep => ?_, fun k => ?_⟩
  · exact valueRangeSimplify_stepsAlike hpc (hsound s hs) hstep
  · exact dropRedundantIntCast_stepsAlike (by rwa [length_castRounds]) (hsound s hs) hstep
  · rw [Function.maskRounds]
    unfold Function.maskAt
    cases hsite : (fn.maskRounds k).maskSite fn.tempUseCount k with
    | none => exact Or.inl rfl
    | some site =>
      obtain ⟨producer, shift⟩ := site
      obtain ⟨t, hsite⟩ := maskSite_spec hsite
      exact Or.inr ⟨producer, t, hsite.tested, hsite.used, hsite.masksAlike⟩

end Operands

/-- A cast of the parameter, a test whether it is even, and the quotient of two literals. -/
def isEven : Function where
  parameterNames := ["p"]
  parameterTypes := [some "int64"]
  instructions := [
    { op := .cast, dest := .ofTemp "q", lhs := .ofSymbol "p", text := some "int32" },
    { op := .binary, dest := .ofTemp "t", lhs := .ofSymbol "p", rhs := .ofInt 2, text := some "%" },
    { op := .branchZero, lhs := .ofTemp "t", text := some "even" },
    { op := .binary, dest := .ofTemp "u", lhs := .ofInt 5, rhs := .ofInt 8, text := some "/" },
    { op := .return, lhs := .ofTemp "u" },
    { op := .label, text := some "even" },
    { op := .return, lhs := .ofInt 1 }]

/-- The parameter holds a word. -/
def withParameter (w : BitVec 64) : State Unit where
  env := fun x => if x = "p" then some { value := .ofInt w, size := 8 } else none
  world := ()

/-- Intervals of one operand. -/
def onlyRange (o : Operand) (r : IntRange) (o' : Operand) : IntRange := if o' = o then r else .full

/-- The range of one operand, and nothing about the others, is sound when the one is. -/
theorem onlyRange_sound {s : State Unit} {o : Operand} {r : IntRange} (h : r.Sound Host.scalars s o)
    (o' : Operand) : (onlyRange o r o').Sound Host.scalars s o' := by
  by_cases ho : o' = o
  · rw [onlyRange, if_pos ho, ho]
    exact h
  · rw [onlyRange, if_neg ho]
    intro v _
    split
    · rfl
    · have hlt := v.i.toInt_lt
      have hle := v.i.le_toInt
      constructor <;> simp only [IntRange.full] <;> omega

/-- In the example nothing comes back to the start. -/
theorem isEven_arrives {s : State Unit} (h : isEven.Arrives Host.scalars (withParameter 7) 0 s) :
    s = withParameter 7 := by
  obtain ⟨n, hn⟩ := h
  match n, hn with
  | 0, hn => exact ((Config.at.inj (some.inj hn)).2).symm
  | 1, hn => cases hn
  | 2, hn => cases hn
  | 3, hn => cases hn
  | 4, hn => cases hn
  | n + 5, hn =>
    have hreturned : ∀ m v (t : State Unit), stepN Host.scalars isEven m (.returned v t) = some (.returned v t) := by
      intro m v t
      induction m with
      | zero => rfl
      | succ m ih => exact ih
    have hrun : stepN Host.scalars isEven (n + 5) (.at 0 (withParameter 7)) = stepN Host.scalars isEven n _ := rfl
    rw [hrun, hreturned] at hn
    cases hn

theorem valueRange_rewrites_alike_isEven :
    (isEven.insn 3).valueRangeSimplify (onlyRange (.ofInt 5) { lo := 5, hi := 5 }) =
        { op := .assign, dest := .ofTemp "u", lhs := .ofInt 0 } ∧
      (∀ s, isEven.Arrives Host.scalars (withParameter 7) 3 s → (step Host.scalars isEven (.at 3 s)).isSome = true →
        StepsAlike Host.scalars isEven (isEven.setInsn 3 ((isEven.insn 3).valueRangeSimplify
          (onlyRange (.ofInt 5) { lo := 5, hi := 5 }))) 3 s) ∧
      (isEven.castRounds (fun _ _ => onlyRange (.ofSymbol "p") { lo := 0, hi := 9 }) 1).insn 0 =
        { op := .assign, dest := .ofTemp "q", lhs := .ofSymbol "p" } ∧
      StepsAlike Host.scalars isEven
        (isEven.castRounds (fun _ _ => onlyRange (.ofSymbol "p") { lo := 0, hi := 9 }) 1) 0 (withParameter 7) ∧
      isEven.maskRounds 3 ≠ isEven.maskRounds 2 ∧
      ∃ producer t, ((isEven.maskRounds 2).insn 2).vrZeroTestOperand = some t ∧ isEven.tempUseCount t = 1 ∧
        MasksAlike Host.scalars (isEven.maskRounds 2) (isEven.maskRounds 3) t producer 2 := by
  have h := valueRange_rewrites_alike Host.scalars isEven (withParameter 7)
  have hne : isEven.maskRounds 3 ≠ isEven.maskRounds 2 := by decide
  refine ⟨by decide, ?_, by decide, ?_, hne, (h.2.2 2).resolve_left hne⟩
  · refine h.1 3 _ (by decide) fun s _ o => onlyRange_sound (fun v hv => ?_) o
    obtain rfl := Option.some.inj hv
    rw [if_neg (by decide)]
    exact ⟨by decide, by decide⟩
  · refine h.2.1 _ 0 (by decide) (fun s hs o => onlyRange_sound (fun v hv => ?_) o) _ ⟨0, rfl⟩ (by decide)
    rw [isEven_arrives hs] at hv
    obtain rfl := Option.some.inj hv
    rw [if_neg (by decide)]
    exact ⟨by decide, by decide⟩

/-- The word of a variable after a step. -/
def wordAfter (c : Option (Config Unit)) (x : String) : Option (BitVec 64) :=
  match c with
  | some (.at _ s) => (s.env x).map fun var => var.value.i
  | _ => none

/-- The remainder of a negative number is negative, the mask is not. -/
theorem mask_changes_remainder :
    ¬ ∀ s, isEven.Arrives Host.scalars (withParameter (-1)) 1 s →
      StepsAlike Host.scalars isEven isEven.remainderZeroTestToMask 1 s := by
  intro h
  let s : State Unit :=
    { env := Function.update (withParameter (-1)).env "q" (some { value := .ofInt (-1) }), world := () }
  have hbefore : wordAfter (step Host.scalars isEven (.at 1 s)) "t" = some (-1) := by decide
  have hafter : wordAfter (step Host.scalars isEven.remainderZeroTestToMask (.at 1 s)) "t" = some 1 := by
    decide
  rcases h s ⟨1, rfl⟩ with heq | ⟨v, v', hv, hv', -, -, hi⟩
  · rw [heq, hbefore] at hafter
    exact absurd hafter (by decide)
  · have hstored : ∀ v, wordAfter ((s.storeDest Host.scalars (.ofTemp "t") v).map (.at 2)) "t" = some v.i := by
      intro v
      simp [wordAfter, storeDest, Operand.ofTemp, Var.write, s, withParameter]
    rw [hv, show (isEven.insn 1).dest = .ofTemp "t" from rfl, hstored] at hbefore
    rw [hv', show (isEven.insn 1).dest = .ofTemp "t" from rfl, hstored, hi, hbefore] at hafter
    exact absurd hafter (by decide)

end Mettle.Ir

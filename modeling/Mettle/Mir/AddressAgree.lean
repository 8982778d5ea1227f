import Mettle.Mir.Addressing

/-!
# Functions that differ in dropped registers

Two functions run alike when their states differ only in registers whose values nothing reads, or reads only
through an address that is the same.
-/

open Option Function

namespace Mettle.Mir

variable {M V : Type} {H : AddrHost M V}

/-- States that differ at most in the registers of `D`. -/
structure Agree (D : Set ℤ) (s s' : State M V) : Prop where
  machine : s'.machine = s.machine
  regs : ∀ v ∉ D, s'.regs v = s.regs v

theorem Agree.refl (D : Set ℤ) (s : State M V) : Agree D s s := ⟨rfl, fun _ _ => rfl⟩

theorem Agree.trans {D D' : Set ℤ} {s s' s'' : State M V} (h : Agree D s s') (h' : Agree D' s' s'') :
    Agree (D ∪ D') s s'' where
  machine := h'.machine.trans h.machine
  regs v hv := (h'.regs v fun hin => hv (.inr hin)).trans (h.regs v fun hin => hv (.inl hin))

section

variable {fn fn' : MirFunction} {D : Set ℤ} {s s' : State M V}

theorem vreg_of_vregs (h : fn'.vregs = fn.vregs) (v : ℤ) : fn'.vreg v = fn.vreg v := by
  rw [MirFunction.vreg, MirFunction.vreg, h]

section

variable (h : Agree D s s') (hvregs : fn'.vregs = fn.vregs)
include h hvregs

theorem Agree.read {v : ℤ} (hv : v ∉ D) : H.read fn' s' v = H.read fn s v := by
  rw [AddrHost.read, AddrHost.read, vreg_of_vregs hvregs, h.machine, h.regs v hv]

/-- An address made of registers outside the set is the same. -/
theorem Agree.address {o : Operand} (hbase : o.base ∉ D) (hindex : o.index ∉ D) :
    H.address fn' s' o = H.address fn s o := by
  rw [AddrHost.address, AddrHost.address, h.machine, h.read hvregs hbase, h.read hvregs hindex]

theorem Agree.arg {o : Operand} (ho : ∀ v ∈ o.vregs, v ∉ D) : H.arg fn' s' o = H.arg fn s o := by
  unfold AddrHost.arg
  unfold Operand.vregs at ho
  cases hkind : o.kind <;> simp only [hkind] at ho ⊢
  case vreg => rw [h.read hvregs (ho _ (.head _))]
  case mem =>
    rw [h.address hvregs (ho _ (.head _)) (ho _ (.tail _ (.head _)))]

theorem Agree.write (v : ℤ) (x : V) : Agree D (H.write fn s v x) (H.write fn' s' v x) := by
  unfold AddrHost.write
  rw [vreg_of_vregs hvregs]
  split
  · exact ⟨by rw [h.machine], h.regs⟩
  · refine ⟨h.machine, fun u hu => ?_⟩
    show update s'.regs v x u = update s.regs v x u
    by_cases huv : u = v
    · rw [huv, update_self, update_self]
    · rw [update_of_ne huv, update_of_ne huv, h.regs u hu]

end

variable {v : ℤ} {i i' : Inst} {s₁ : State M V}

/-- A write of a register of `D` on one side. -/
theorem Agree.write_left (h : Agree D s s') (hv : v ∈ D) (hreg : (fn.vreg v).addressTaken = false) (x : V) :
    Agree D (H.write fn s v x) s' := by
  rw [AddrHost.write, hreg]
  refine ⟨h.machine, fun u hu => ?_⟩
  show s'.regs u = update s.regs v x u
  rw [update_of_ne (by rintro rfl; exact hu hv), h.regs u hu]

/-- A write inside the set, on one side only. -/
theorem Agree.write_right (h : Agree D s s') (hv : v ∈ D) (hreg : (fn'.vreg v).addressTaken = false) (x : V) :
    Agree D s (H.write fn' s' v x) := by
  rw [AddrHost.write, hreg]
  refine ⟨h.machine, fun u hu => ?_⟩
  show update s'.regs v x u = s.regs u
  rw [update_of_ne (by rintro rfl; exact hu hv), h.regs u hu]

/-! ## Steps -/

/-- The operands of two instructions give the same. -/
structure SameArgs (H : AddrHost M V) (fn : MirFunction) (s : State M V) (i : Inst) (fn' : MirFunction)
    (s' : State M V) (i' : Inst) : Prop where
  a : H.arg fn' s' i'.a = H.arg fn s i.a
  b : H.arg fn' s' i'.b = H.arg fn s i.b
  dst : H.dstArg fn' s' i' = H.dstArg fn s i

theorem SameArgs.trans {fn'' : MirFunction} {s'' : State M V} {i'' : Inst} (h : SameArgs H fn s i fn' s' i')
    (h' : SameArgs H fn' s' i' fn'' s'' i'') : SameArgs H fn s i fn'' s'' i'' :=
  ⟨h'.a.trans h.a, h'.b.trans h.b, h'.dst.trans h.dst⟩

/-- An instruction has no operand, nor an old destination it reads, in `D`. -/
structure Avoids (D : Set ℤ) (i : Inst) : Prop where
  a : ∀ v ∈ i.a.vregs, v ∉ D
  b : ∀ v ∈ i.b.vregs, v ∉ D
  dst : i.dst.kind = .mem ∨ i.readsDst → ∀ v ∈ i.dst.vregs, v ∉ D

/-- An instruction that avoids the set sees the same operands. -/
theorem Avoids.sameArgs (hi : Avoids D i) (h : Agree D s s') (hvregs : fn'.vregs = fn.vregs) :
    SameArgs H fn s i fn' s' i where
  a := h.arg hvregs hi.a
  b := h.arg hvregs hi.b
  dst := by
    unfold AddrHost.dstArg
    split
    · exact h.arg hvregs (hi.dst (by assumption))
    · rfl

/-- Host instructions of one shape with the same operands do the same. -/
theorem Agree.execHost (h : Agree D s s') (hvregs : fn'.vregs = fn.vregs) (hshape : i'.shape = i.shape)
    (hargs : SameArgs H fn s i fn' s' i') (hstep : H.execHost fn s i = some s₁) :
    ∃ s₁', H.execHost fn' s' i' = some s₁' ∧ Agree D s₁ s₁' := by
  have hkind (i : Inst) : i.shape.dst.kind = i.dst.kind := by
    show (if i.dst.kind = .mem then _ else _ : Operand).kind = _
    split <;> rfl
  have hdst (i : Inst) (hk : i.dst.kind = .vreg) : i.shape.dst.vreg = i.dst.vreg := by
    show (if i.dst.kind = .mem then _ else _ : Operand).vreg = _
    rw [hk, if_neg (by decide)]
  have hsame : i'.dst.kind = i.dst.kind := by rw [← hkind i', hshape, hkind i]
  unfold AddrHost.execHost at hstep ⊢
  rw [h.machine, hshape, hargs.a, hargs.b, hargs.dst]
  rw [map_eq_some_iff] at hstep
  obtain ⟨⟨x, m⟩, hexec, rfl⟩ := hstep
  rw [hexec]
  refine ⟨_, rfl, ?_⟩
  have hmachine : Agree D { s with machine := m } { s' with machine := m } := ⟨rfl, h.regs⟩
  simp only [hsame]
  split
  · rename_i hk
    have hvreg : i'.dst.vreg = i.dst.vreg := by rw [← hdst i' (hsame.trans hk), hshape, hdst i hk]
    rw [hvreg]
    exact hmachine.write hvregs _ _
  · exact hmachine

theorem isCopy_a (h : i.isCopy = true) : i.a.kind = .vreg := by
  simp only [Inst.isCopy, decide_eq_true_eq] at h
  exact h.2.2

/-- The facts of a 64-bit operation with a constant. -/
theorem isImmArith_spec {op : Opcode} (h : i.isImmArith op = true) :
    i.op = op ∧ i.isFloat = false ∧ i.width = 8 ∧ i.dst.kind = .vreg ∧ i.a.kind = .vreg ∧ i.b.kind = .imm := by
  simp only [Inst.isImmArith, decide_eq_true_eq, Bool.not_eq_true] at h
  exact h

/-- An instruction that avoids `D` does the same on both sides. -/
theorem Agree.step (h : Agree D s s') (hvregs : fn'.vregs = fn.vregs) (hi : Avoids D i)
    (hstep : H.step fn s i = some s₁) : ∃ s₁', H.step fn' s' i = some s₁' ∧ Agree D s₁ s₁' := by
  have hread (ha : i.a.kind = .vreg) : H.read fn' s' i.a.vreg = H.read fn s i.a.vreg := by
    apply h.read hvregs
    apply hi.a
    rw [Operand.vregs, ha]
    exact .head _
  unfold AddrHost.step at hstep ⊢
  split at hstep
  · rename_i hnop
    rw [if_pos hnop]
    exact ⟨s', rfl, some.inj hstep ▸ h⟩
  rename_i hnop
  rw [if_neg hnop]
  split at hstep
  · rename_i hcopy
    rw [if_pos hcopy, hread (isCopy_a hcopy)]
    exact ⟨_, rfl, some.inj hstep ▸ h.write hvregs _ _⟩
  rename_i hcopy
  rw [if_neg hcopy]
  split at hstep
  · rename_i hadd
    rw [if_pos hadd, hread (isImmArith_spec hadd).2.2.2.2.1]
    exact ⟨_, rfl, some.inj hstep ▸ h.write hvregs _ _⟩
  rename_i hadd
  rw [if_neg hadd]
  split at hstep
  · rename_i hmul
    rw [if_pos hmul, hread (isImmArith_spec hmul).2.2.2.2.1]
    exact ⟨_, rfl, some.inj hstep ▸ h.write hvregs _ _⟩
  rename_i hmul
  rw [if_neg hmul]
  exact h.execHost hvregs rfl (hi.sameArgs h hvregs) hstep

/-- The instructions that only compute a register from one. -/
def Inst.IsPlain (i : Inst) : Prop := i.isCopy = true ∨ i.isImmArith .add = true ∨ i.isImmArith .imul = true

theorem step_nop (h : i.op = .nop) : H.step fn s i = some s := by
  unfold AddrHost.step
  rw [if_pos (.inl h)]

theorem isCopy_op (h : i.isCopy = true) : i.op = .mov ∧ i.dst.kind = .vreg := by
  simp only [Inst.isCopy, decide_eq_true_eq] at h
  exact ⟨h.1, h.2.1⟩

/-- A plain instruction is a move, an addition or a product into a register. -/
theorem Inst.IsPlain.op (h : i.IsPlain) : (i.op = .mov ∨ i.op = .add ∨ i.op = .imul) ∧ i.dst.kind = .vreg := by
  rcases h with h | h | h
  · exact ⟨.inl (isCopy_op h).1, (isCopy_op h).2⟩
  · exact ⟨.inr (.inl (isImmArith_spec h).1), (isImmArith_spec h).2.2.2.1⟩
  · exact ⟨.inr (.inr (isImmArith_spec h).1), (isImmArith_spec h).2.2.2.1⟩

/-- A copy writes what it reads. -/
theorem step_copy (h : i.isCopy = true) : H.step fn s i = some (H.write fn s i.dst.vreg (H.read fn s i.a.vreg)) := by
  have hop := (isCopy_op h).1
  unfold AddrHost.step
  rw [if_neg (by rw [hop]; decide), if_pos h]

/-- An addition of a constant writes the sum. -/
theorem step_add (h : i.isImmArith .add = true) :
    H.step fn s i =
      some (H.write fn s i.dst.vreg (H.ofWord (H.word (H.read fn s i.a.vreg) + BitVec.ofInt 64 i.b.imm))) := by
  have hop := (isImmArith_spec h).1
  unfold AddrHost.step
  rw [if_neg (by rw [hop]; decide), if_neg (fun hcopy => by rw [(isCopy_op hcopy).1] at hop; cases hop), if_pos h]

/-- A product with a constant writes the product. -/
theorem step_imul (h : i.isImmArith .imul = true) :
    H.step fn s i =
      some (H.write fn s i.dst.vreg (H.ofWord (H.word (H.read fn s i.a.vreg) * BitVec.ofInt 64 i.b.imm))) := by
  have hop := (isImmArith_spec h).1
  unfold AddrHost.step
  rw [if_neg (by rw [hop]; decide), if_neg (fun hcopy => by rw [(isCopy_op hcopy).1] at hop; cases hop),
    if_neg (fun hadd => by rw [(isImmArith_spec hadd).1] at hop; cases hop), if_pos h]

/-- A plain instruction writes its destination and nothing else. -/
theorem Inst.IsPlain.step (h : i.IsPlain) (H : AddrHost M V) (fn : MirFunction) (s : State M V) :
    ∃ x, H.step fn s i = some (H.write fn s i.dst.vreg x) := by
  rcases h with h | h | h
  · exact ⟨_, step_copy h⟩
  · exact ⟨_, step_add h⟩
  · exact ⟨_, step_imul h⟩

/-- An instruction that only computes a register of `D` can be dropped. -/
theorem Agree.drop (h : Agree D s s') (hi : i.IsPlain) (hi' : i'.op = .nop) (hv : i.dst.vreg ∈ D)
    (hreg : (fn.vreg i.dst.vreg).addressTaken = false) (hstep : H.step fn s i = some s₁) :
    ∃ s₁', H.step fn' s' i' = some s₁' ∧ Agree D s₁ s₁' := by
  obtain ⟨x, hx⟩ := hi.step H fn s
  rw [hx] at hstep
  refine ⟨s', step_nop hi', ?_⟩
  rw [← some.inj hstep]
  exact h.write_left hv hreg x

/-- Instructions that only compute a register of `D` on both sides. -/
theorem Agree.both (h : Agree D s s') (hvregs : fn'.vregs = fn.vregs) (hi : i.IsPlain) (hi' : i'.IsPlain)
    (hdst : i'.dst = i.dst) (hv : i.dst.vreg ∈ D) (hreg : (fn.vreg i.dst.vreg).addressTaken = false)
    (hstep : H.step fn s i = some s₁) : ∃ s₁', H.step fn' s' i' = some s₁' ∧ Agree D s₁ s₁' := by
  obtain ⟨x, hx⟩ := hi.step H fn s
  obtain ⟨x', hx'⟩ := hi'.step H fn' s'
  rw [hx] at hstep
  refine ⟨_, hx', ?_⟩
  rw [← some.inj hstep, hdst]
  exact (h.write_left hv hreg x).write_right hv (by rw [vreg_of_vregs hvregs]; exact hreg) x'

end

end Mettle.Mir

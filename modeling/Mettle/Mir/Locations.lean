import Mettle.Mir.Machine

/-!
# Replacing virtual registers by locations

The meaning of an allocation. A function runs over virtual registers; the allocated function runs over
locations and loses, at every instruction, what the instruction overwrites. When no instruction
overwrites a location whose register is still to be read, both runs take the same steps.
-/

namespace Mettle.Mir

variable {fn : MirFunction}

/-- `v` is live after instruction `i`. -/
def LiveAfter (fn : MirFunction) (i : ℕ) (v : ℤ) : Prop := ∃ j ∈ fn.next i, LiveAt fn j v

/-- No instruction overwrites the location of another register that was written on some path up to it
and is read later before being rewritten. -/
def KeepsLive (fn : MirFunction) (sysv : Bool) (loc : ℤ → Loc) : Prop :=
  ∀ i < fn.insnCount, ∀ v, LiveAfter fn i v → WrittenAt fn i v → v ∉ fn.defs i →
    (∀ d ∈ fn.defs i, loc d ≠ loc v) ∧ (fn.insn i).overwrites sysv (loc v) = false

/-- The meaning of the instructions: from the registers they read and the rest of the machine (memory,
flags, input) to a result, the rest of the machine after it and the next instruction, `none` to leave
the function. -/
structure Semantics (fn : MirFunction) (Val Ext : Type*) where
  exec : ℕ → (ℤ → Val) → Ext → Val × Ext × Option ℕ
  reads : ∀ i (ρ ρ' : ℤ → Val) e, (∀ v ∈ fn.uses i, ρ v = ρ' v) → exec i ρ e = exec i ρ' e
  goes : ∀ i ρ e j, (exec i ρ e).2.2 = some j → j ∈ fn.next i

variable {Val Ext : Type*} (sem : Semantics fn Val Ext)

/-- Runs over virtual registers, `pc`, registers, rest of the machine and the registers written so far.
Every register read was written before. -/
inductive VregRun (ρ₀ : ℤ → Val) (e₀ : Ext) : ℕ → ℕ → (ℤ → Val) → Ext → Finset ℤ → Prop
  | start : VregRun ρ₀ e₀ 0 0 ρ₀ e₀ fn.entryDefs
  | step {n i j : ℕ} {ρ ρ' : ℤ → Val} {e : Ext} {W : Finset ℤ} :
    VregRun ρ₀ e₀ n i ρ e W → fn.uses i ⊆ W →
    (sem.exec i ρ e).2.2 = some j →
    (∀ d ∈ fn.defs i, ρ' d = (sem.exec i ρ e).1) → (∀ v ∉ fn.defs i, ρ' v = ρ v) →
    VregRun ρ₀ e₀ (n + 1) j ρ' (sem.exec i ρ e).2.1 (W ∪ fn.defs i)

/-- Runs over locations: an instruction sets the location of its result and may leave anything in the
locations it overwrites. -/
inductive LocRun (sysv : Bool) (loc : ℤ → Loc) (σ₀ : Loc → Val) (e₀ : Ext) :
    ℕ → ℕ → (Loc → Val) → Ext → Prop
  | start : LocRun sysv loc σ₀ e₀ 0 0 σ₀ e₀
  | step {n i j : ℕ} {σ σ' : Loc → Val} {e : Ext} :
    LocRun sysv loc σ₀ e₀ n i σ e →
    (sem.exec i (fun v => σ (loc v)) e).2.2 = some j →
    (∀ d ∈ fn.defs i, σ' (loc d) = (sem.exec i (fun v => σ (loc v)) e).1) →
    (∀ l, (∀ d ∈ fn.defs i, loc d ≠ l) → (fn.insn i).overwrites sysv l = false → σ' l = σ l) →
    LocRun sysv loc σ₀ e₀ (n + 1) j σ' (sem.exec i (fun v => σ (loc v)) e).2.1

variable {sem} {ρ₀ ρ : ℤ → Val} {σ₀ σ : Loc → Val} {e₀ e e' : Ext} {sysv : Bool} {loc : ℤ → Loc}
  {n i j : ℕ} {W : Finset ℤ}

/-- A run has only written what some path up to its instruction writes. -/
theorem VregRun.writtenAt (h : VregRun sem ρ₀ e₀ n i ρ e W) : ∀ v ∈ W, WrittenAt fn i v := by
  induction h with
  | start => exact fun v hv => .entry hv
  | step hrun _ hj _ _ ih =>
    have hmem := sem.goes _ _ _ _ hj
    intro v hv
    rcases Finset.mem_union.mp hv with hv | hv
    · exact .pass hmem (ih v hv)
    · exact .write hmem hv

/-- An allocation that keeps live registers is sound: a run over locations that starts with the entry
registers in place takes the same steps as the run over virtual registers, has the same effect, and
holds every register that is still to be read in its location. -/
theorem KeepsLive.simulates (hkeeps : KeepsLive fn sysv loc)
    (hentry : ∀ v ∈ fn.entryDefs, LiveAt fn 0 v → σ₀ (loc v) = ρ₀ v)
    (hv : VregRun sem ρ₀ e₀ n i ρ e W) (hl : LocRun sem sysv loc σ₀ e₀ n j σ e') :
    j = i ∧ e' = e ∧ ∀ v ∈ W, LiveAt fn i v → σ (loc v) = ρ v := by
  induction n generalizing i j ρ σ e e' W with
  | zero =>
    cases hv
    cases hl
    exact ⟨rfl, rfl, hentry⟩
  | succ n ih =>
    cases hv with
    | @step n i _ ρ _ e W hvrun huses hi hdef hrest =>
    cases hl with
    | @step _ i' _ σ _ e' hlrun hj hdef' hrest' =>
      obtain ⟨rfl, rfl, hagree⟩ := ih hvrun hlrun
      -- the instruction reads the same values, so it does the same
      have hexec : sem.exec i' (fun v => σ (loc v)) e' = sem.exec i' ρ e' :=
        sem.reads i' _ _ e' fun v hv => hagree v (huses hv) (.read hv)
      rw [hexec] at hj hdef' ⊢
      obtain rfl := Option.some.inj (hi.symm.trans hj)
      refine ⟨rfl, rfl, fun v hv hlive => ?_⟩
      have hnext := sem.goes i' ρ e' _ hi
      by_cases hd : v ∈ fn.defs i'
      · rw [hdef' v hd, hdef v hd]
      · have hW : v ∈ W := (Finset.mem_union.mp hv).resolve_right hd
        have hlt := MirFunction.lt_of_mem_next hnext
        obtain ⟨hdistinct, hkept⟩ :=
          hkeeps i' hlt v ⟨_, hnext, hlive⟩ (hvrun.writtenAt v hW) hd
        rw [hrest' (loc v) hdistinct hkept, hrest v hd]
        exact hagree v hW (.pass hnext hd hlive)

/-- Replacing the virtual registers by their locations preserves every execution: whatever the
instructions mean, a run over locations from the entry registers in place reaches the same
instruction in the same state as the run over virtual registers. -/
def Preserves (fn : MirFunction) (sysv : Bool) (loc : ℤ → Loc) : Prop :=
  ∀ (Val Ext : Type) (sem : Semantics fn Val Ext) (ρ₀ ρ : ℤ → Val) (σ₀ σ : Loc → Val)
    (e₀ e e' : Ext) (n i j : ℕ) (W : Finset ℤ),
    (∀ v ∈ fn.entryDefs, LiveAt fn 0 v → σ₀ (loc v) = ρ₀ v) →
    VregRun sem ρ₀ e₀ n i ρ e W → LocRun sem sysv loc σ₀ e₀ n j σ e' → j = i ∧ e' = e

theorem KeepsLive.preserves (hkeeps : KeepsLive fn sysv loc) : Preserves fn sysv loc := by
  intro Val Ext sem ρ₀ ρ σ₀ σ e₀ e e' n i j W hentry hv hl
  obtain ⟨hpc, hext, -⟩ := hkeeps.simulates hentry hv hl
  exact ⟨hpc, hext⟩

end Mettle.Mir

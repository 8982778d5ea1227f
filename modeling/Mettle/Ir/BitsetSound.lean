import Mettle.Ir.Bitset
import Mettle.Ir.Skeleton
import Mettle.Ir.Words

/-!
# Bit sets branch like the chains they replace

The chain leaves for the label it branches to when the operand is one of its keys. The guard lets the
words up to the largest key through, for these the shift is defined, and the bit of the word is in the
mask exactly for the keys.
-/

open List
open Option hiding or_assoc or_self
open BitVec hiding not_not or_assoc or_self

namespace Mettle.Ir.Bitset

open State

variable {W : Type} {H : Host W} {fn : Function} {s s' : State W}

/-! ## The mask -/

/-- A key that is accepted is a bit of a positive word. -/
theorem toNat_le_of_keyOk {keys : List (BitVec 64)} {k : BitVec 64} (h : keyOk keys k = true) : k.toNat ≤ 62 := by
  unfold keyOk at h
  rw [decide_eq_true_eq] at h
  have := toInt_eq_toNat_cond k
  split at this <;> omega

section

variable {keys : List (BitVec 64)} (hkeys : ∀ k ∈ keys, k.toNat ≤ 62)
include hkeys

theorem getLsbD_mask (n : ℕ) : (mask keys).getLsbD n = true ↔ ∃ k ∈ keys, k.toNat = n := by
  have hfold : ∀ m : BitVec 64, (keys.foldl (fun m k => m ||| 1#64 <<< k.toNat) m).getLsbD n = true ↔
      m.getLsbD n = true ∨ ∃ k ∈ keys, k.toNat = n := by
    induction keys with
    | nil => simp
    | cons k rest ih =>
      intro m
      rw [forall_mem_cons] at hkeys
      have hone : (1#64 <<< k.toNat).getLsbD n = decide (k.toNat = n) := by
        rw [← twoPow_eq, getLsbD_twoPow]
        simp
        omega
      rw [foldl_cons, ih hkeys.2, getLsbD_or]
      rw [hone]
      simp [or_assoc]
  unfold mask
  rw [hfold]
  simp

/-- The test of one bit of the mask decides whether the word is a key. -/
theorem mask_and_ne_zero {w : BitVec 64} (hw : w.toNat ≤ 62) : (1#64 <<< (w.toNat % 64)) &&& mask keys ≠ 0 ↔ w ∈ keys := by
  have hmod : w.toNat % 64 = w.toNat := Nat.mod_eq_of_lt (by omega)
  have hbit := getLsbD_mask hkeys w.toNat
  have hmem : (∃ k ∈ keys, k.toNat = w.toNat) ↔ w ∈ keys := by
    constructor
    · rintro ⟨k, hk, heq⟩
      rwa [← eq_of_toNat_eq heq]
    · exact fun h => ⟨w, h, rfl⟩
  rw [hmod, BitVec.and_comm, ← twoPow_eq, and_twoPow, ← hmem, ← hbit]
  split
  · rename_i h
    simp only [h, iff_true]
    intro hzero
    have := congrArg (fun x : BitVec 64 => x.getLsbD w.toNat) hzero
    simp at this
    omega
  · rename_i h
    simp [h]

/-- The bound that is tested first is at least every key, and below 63. -/
theorem le_maxKey : (∀ k ∈ keys, k.toNat ≤ (maxKey keys).toNat) ∧ (maxKey keys).toNat ≤ 62 := by
  have hfold : ∀ m : BitVec 64, m.toNat ≤ 62 →
      (∀ k ∈ keys, k.toNat ≤ (keys.foldl (fun m k => if m.slt k then k else m) m).toNat) ∧
      m.toNat ≤ (keys.foldl (fun m k => if m.slt k then k else m) m).toNat ∧
      (keys.foldl (fun m k => if m.slt k then k else m) m).toNat ≤ 62 := by
    induction keys with
    | nil => exact fun m hm => ⟨nofun, le_rfl, hm⟩
    | cons k rest ih =>
      intro m hm
      rw [forall_mem_cons] at hkeys
      have hslt : m.slt k = true ↔ m.toNat < k.toNat := by
        rw [slt_iff_toInt_lt, toInt_eq_toNat_of_lt (by omega), toInt_eq_toNat_of_lt (by omega)]
        omega
      have hnext : (if m.slt k then k else m).toNat ≤ 62 := by
        split
        · exact hkeys.1
        · exact hm
      have hge : m.toNat ≤ (if m.slt k then k else m).toNat ∧ k.toNat ≤ (if m.slt k then k else m).toNat := by
        split
        · rename_i h
          exact ⟨(hslt.mp h).le, le_rfl⟩
        · rename_i h
          exact ⟨le_rfl, not_lt.mp (mt hslt.mpr h)⟩
      obtain ⟨h₁, h₂, h₃⟩ := ih hkeys.2 _ hnext
      exact ⟨forall_mem_cons.mpr ⟨hge.2.trans h₂, h₁⟩, hge.1.trans h₂, h₃⟩
  obtain ⟨h₁, -, h₃⟩ := hfold 0 (by decide)
  exact ⟨h₁, h₃⟩

end

/-! ## Runs inside a part of the code -/

/-- The second configuration is reached from the first by steps at instructions from `lo` to `hi`. -/
inductive Within (H : Host W) (fn : Function) (lo hi : ℕ) : Config W → Config W → Prop
  | refl (c : Config W) : Within H fn lo hi c c
  | step {pc : ℕ} {s : State W} {c d : Config W} : lo ≤ pc → pc < hi → Ir.step H fn (.at pc s) = some c →
      Within H fn lo hi c d → Within H fn lo hi (.at pc s) d

variable {lo hi p q : ℕ}

theorem Within.trans {c d e : Config W} (h : Within H fn lo hi c d) (h' : Within H fn lo hi d e) :
    Within H fn lo hi c e := by
  induction h with
  | refl => exact h'
  | step hlo hhi hstep _ ih => exact .step hlo hhi hstep (ih h')

/-- One step inside a range. -/
theorem Within.single {pc : ℕ} {c : Config W} (hlo : lo ≤ pc) (hhi : pc < hi)
    (hstep : Ir.step H fn (.at pc s) = some c) : Within H fn lo hi (.at pc s) c :=
  .step hlo hhi hstep (.refl c)

/-- The run from `lo` first leaves the code before `hi` for a label of that name. -/
def ToLabel (H : Host W) (fn : Function) (lo hi : ℕ) (s : State W) (label : Option String) : Prop :=
  ∃ target s', Within H fn lo hi (.at lo s) (.at target s') ∧ ¬ (lo ≤ target ∧ target < hi) ∧
    (fn.insn target).op = .label ∧ (fn.insn target).text = label

/-- A run over `NOP`s. -/
theorem within_nops (hlo : lo ≤ p) (hpq : p ≤ q) (hhi : q ≤ hi) (hlen : q ≤ fn.instructions.length)
    (hnops : ∀ j, p ≤ j → j < q → (fn.insn j).op = .nop) : Within H fn lo hi (.at p s) (.at q s) := by
  obtain ⟨n, rfl⟩ := Nat.exists_eq_add_of_le hpq
  clear hpq
  induction n generalizing p with
  | zero => exact .refl _
  | succ n ih =>
    refine .step hlo (by omega) (step_nop (by omega) (hnops p le_rfl (by omega))) ?_
    have := ih (p := p + 1) (by omega) (by omega) (by omega) fun j hj hj' => hnops j (by omega) (by omega)
    rwa [show p + (n + 1) = p + 1 + n by omega]

/-- The search skips `NOP`s only. -/
theorem nextNonNop_spec (h : fn.nextNonNop p = some q) :
    p ≤ q ∧ q < fn.instructions.length ∧ ∀ j, p ≤ j → j < q → (fn.insn j).op = .nop := by
  unfold Function.nextNonNop at h
  rw [map_eq_some_iff] at h
  obtain ⟨n, hn, rfl⟩ := h
  obtain ⟨hlt, -, hbefore⟩ := findIdx?_eq_some_iff_getElem.mp hn
  rw [length_drop] at hlt
  refine ⟨by omega, by omega, fun j hj hj' => ?_⟩
  have hnop := hbefore (j - p) (by omega)
  rw [decide_eq_true_eq, not_not, getElem_drop] at hnop
  unfold Function.insn
  rw [getD_eq_getElem _ _ (by omega)]
  rw [← hnop]
  congr 2
  omega

/-- A label in the function is found. -/
theorem findLabel_of_insn {j : ℕ} (hj : j < fn.instructions.length) (hop : (fn.insn j).op = .label)
    {name : String} (htext : (fn.insn j).text = some name) : ∃ t, fn.findLabel (some name) = some t := by
  rw [← isSome_iff_exists]
  unfold Function.findLabel
  rw [bind_some, findIdx?_isSome, List.any_eq_true]
  refine ⟨fn.instructions.get ⟨j, hj⟩, List.get_mem _ _, ?_⟩
  unfold Function.insn at hop htext
  rw [getD_eq_getElem _ _ hj] at hop htext
  simp [hop, htext]

/-! ## The chain -/

/-- Operands that the pass takes for the same have the same word. -/
theorem hasWord_of_same {a b : Operand} (h : sameOperand a b = true) {w : BitVec 64}
    (hw : s.HasWord H b w) : s.HasWord H a w := by
  unfold sameOperand at h
  rw [decide_eq_true_eq] at h
  obtain ⟨v, hv, hrest⟩ := hw
  exact ⟨v, (fetch_congr h.1 h.2.2.1 h.2.2.2).trans hv, hrest⟩

/-- What the loop of `ir_bitset_match_chain` passes. -/
structure Scanned (fn : Function) (first : Inst) (p n : ℕ) (new : List (BitVec 64)) : Prop where
  length : p + n ≤ fn.instructions.length
  chain : ∀ j, p ≤ j → j < p + n →
    (fn.insn j).op = .nop ∨ (fn.insn j).op = .branchEq ∧ (fn.insn j).text = first.text
  keys : ∀ k ∈ new, k.toNat ≤ 62

/-- The scan appends keys of comparisons with the same operand and label; a run over them branches exactly when the
word is one of these keys. -/
theorem scan_spec (first : Inst) (hp : p ≤ fn.instructions.length) (keys : List (BitVec 64)) :
    ∃ new, (scan first (fn.instructions.drop p) keys).1 = keys ++ new ∧
      Scanned fn first p (scan first (fn.instructions.drop p) keys).2 new ∧
      ∀ {W : Type} {H : Host W} {s : State W} {lo hi : ℕ} {w : BitVec 64}, lo ≤ p →
        p + (scan first (fn.instructions.drop p) keys).2 ≤ hi → s.HasWord H first.lhs w →
        ∀ {target : ℕ}, fn.findLabel first.text = some target →
          (w ∈ new → Within H fn lo hi (.at p s) (.at target s)) ∧
          (w ∉ new → Within H fn lo hi (.at p s) (.at (p + (scan first (fn.instructions.drop p) keys).2) s)) := by
  -- on the instructions still to scan
  induction hrest : fn.instructions.drop p generalizing p keys with
  | nil =>
    refine ⟨[], by simp [scan], ⟨by simpa [scan] using hp, ?_, nofun⟩, ?_⟩
    · intro j hj hj'
      simp [scan] at hj'
      omega
    · intro W H s lo hi w _ _ _ target _
      exact ⟨nofun, fun _ => .refl _⟩
  | cons i rest ih =>
    have hlt : p < fn.instructions.length := by
      by_contra hge
      rw [drop_eq_nil_of_le (by omega)] at hrest
      cases hrest
    have hi : fn.insn p = i := by
      have := drop_eq_getElem_cons hlt
      rw [hrest] at this
      rw [getElem_insn fn hlt] at this
      exact (cons.inj this).1.symm
    have hrest' : fn.instructions.drop (p + 1) = rest := by
      rw [← drop_drop, hrest]
      rfl
    rw [scan]
    by_cases hnop : i.op = .nop
    -- a hole is skipped and adds no key
    · simp only [if_pos hnop]
      obtain ⟨new, hkeys, hscan, hrun⟩ := ih hlt keys hrest'
      refine ⟨new, hkeys, ⟨?_, ?_, hscan.keys⟩, ?_⟩
      · have := hscan.length
        omega
      · intro j hj hj'
        by_cases hjp : j = p
        · rw [hjp, hi]
          exact .inl hnop
        · exact hscan.chain j (by omega) (by omega)
      · intro W H s lo hi' w hlo hhi hw target htarget
        have hstep : Within H fn lo hi' (.at p s) (.at (p + 1) s) :=
          .single hlo (by omega) (step_nop hlt (by rw [hi]; exact hnop))
        have hhi' : p + 1 + (scan first rest keys).2 ≤ hi' := by omega
        obtain ⟨h₁, h₂⟩ := hrun (by omega : lo ≤ p + 1) hhi' hw htarget
        refine ⟨fun hin => hstep.trans (h₁ hin), fun hout => hstep.trans ?_⟩
        rw [show p + ((scan first rest keys).2 + 1) = p + 1 + (scan first rest keys).2 by omega]
        exact h₂ hout
    · simp only [if_neg hnop]
      by_cases hlink : isLink first keys i = true
      -- a link adds its key; its test is one step of the run
      · simp only [if_pos hlink]
        obtain ⟨new, hkeys, hscan, hrun⟩ := ih hlt (keys ++ [i.rhs.intValue]) hrest'
        unfold isLink at hlink
        rw [decide_eq_true_eq] at hlink
        obtain ⟨hop, -, -, htext, hint, hsame, hok⟩ := hlink
        refine ⟨i.rhs.intValue :: new, by rw [hkeys]; simp, ⟨?_, ?_, ?_⟩, ?_⟩
        · have := hscan.length
          omega
        · intro j hj hj'
          by_cases hjp : j = p
          · rw [hjp, hi]
            exact .inr ⟨hop, htext⟩
          · exact hscan.chain j (by omega) (by omega)
        · exact forall_mem_cons.mpr ⟨toNat_le_of_keyOk hok, hscan.keys⟩
        · intro W H s lo hi' w hlo hhi hw target htarget
          have hstep := @step_branchEq_word W H fn s p w i.rhs.intValue hlt (by rw [hi]; exact hop)
            (by rw [hi]; exact hasWord_of_same hsame hw) (by rw [hi]; exact hasWord_int hint)
          rw [hi, htext, htarget] at hstep
          have hhi' : p + 1 + (scan first rest (keys ++ [i.rhs.intValue])).2 ≤ hi' := by omega
          obtain ⟨h₁, h₂⟩ := hrun (by omega : lo ≤ p + 1) hhi' hw htarget
          by_cases hkey : w = i.rhs.intValue
          · rw [if_pos hkey, map_some] at hstep
            refine ⟨fun _ => .single hlo (by omega) hstep, fun hout => ?_⟩
            rw [hkey] at hout
            exact absurd (.head _) hout
          · rw [if_neg hkey] at hstep
            have hstep' : Within H fn lo hi' (.at p s) (.at (p + 1) s) :=
              .single hlo (by omega) hstep
            refine ⟨fun hin => hstep'.trans (h₁ ?_), fun hout => hstep'.trans ?_⟩
            · exact (mem_cons.mp hin).resolve_left hkey
            · rw [show p + ((scan first rest (keys ++ [i.rhs.intValue])).2 + 1) =
                p + 1 + (scan first rest (keys ++ [i.rhs.intValue])).2 by omega]
              exact h₂ fun hin => hout (.tail _ hin)
      -- anything else ends the scan
      · simp only [if_neg hlink]
        refine ⟨[], by simp, ⟨by simpa using hp, ?_, nofun⟩, ?_⟩
        · intro j hj hj'
          omega
        · intro W H s lo hi' w _ _ _ target _
          exact ⟨nofun, fun _ => .refl _⟩

/-- A chain from its first branch to the label it branches to, and how it leaves. -/
structure Chain (fn : Function) (index : ℕ) (keys : List (BitVec 64)) (branch label : ℕ) : Prop where
  ordered : index < branch ∧ branch < label ∧ label < fn.instructions.length
  first : isFirst (fn.insn index) = true
  miss : (fn.insn branch).text.isSome
  keys_le : ∀ k ∈ keys, k.toNat ≤ 62
  /-- nothing but the chain and `NOP`s -/
  only : ∀ j, index ≤ j → j ≤ branch → (fn.insn j).op = .nop ∨
    (fn.insn j).op = .branchEq ∧ (fn.insn j).text = (fn.insn index).text ∨
    (fn.insn j).op = .binary ∧ (fn.insn j).text = some "==" ∧
      sameOperand (fn.insn j).lhs (fn.insn index).lhs = true ∨
    j = branch ∧ (fn.insn j).op = .branchZero
  gap : ∀ j, branch < j → j < label → (fn.insn j).op = .nop
  hit : (fn.insn label).op = .label ∧ (fn.insn label).text = (fn.insn index).text
  run : ∀ {W : Type} {H : Host W} {s : State W} {w : BitVec 64}, s.HasWord H (fn.insn index).lhs w →
    (w ∈ keys → ToLabel H fn index label s (fn.insn index).text) ∧
    (w ∉ keys → ∀ t, fn.findLabel (fn.insn branch).text = some t →
      ToLabel H fn index label s (fn.insn branch).text)

/-- A run that is at a label has left a part without labels. -/
theorem toLabel_of_within {target : ℕ} {label : Option String} (h : Within H fn lo hi (.at lo s) (.at target s'))
    (hop : (fn.insn target).op = .label) (htext : (fn.insn target).text = label)
    (hfree : ∀ j, lo ≤ j → j < hi → (fn.insn j).op ≠ .label) : ToLabel H fn lo hi s label :=
  ⟨target, s', h, fun hin => hfree target hin.1 hin.2 hop, hop, htext⟩

/-- A match is a chain of comparisons that ends at the branch. -/
theorem matchChain_spec {index branch : ℕ} {keys : List (BitVec 64)}
    (h : matchChain fn index = some (keys, branch)) : ∃ label, Chain fn index keys branch label := by
  simp only [matchChain, bind_eq_bind, bind_eq_some_iff, guard_eq_some', exists_const] at h
  obtain ⟨hfirst, hne, tail, htail, hclose, branch, hbranch, hisbranch, label, hlabel, hhit, -, hres⟩ := h
  cases hres
  have hfirst' := hfirst
  unfold isFirst at hfirst'
  rw [decide_eq_true_eq] at hfirst'
  obtain ⟨hop, -, htext, hint, -⟩ := hfirst'
  have hlen : index < fn.instructions.length := by
    by_contra hge
    rw [Function.insn, getD_eq_default _ _ (by omega)] at hop
    cases hop
  -- the links that `scan` collected, then the close, the branch and the hit label in their order
  obtain ⟨new, hkeys, hscan, hrun⟩ := scan_spec (fn.insn index) hlen.le []
  rw [nil_append] at hkeys
  set n := (scan (fn.insn index) (fn.instructions.drop index) []).2 with hn
  rw [hkeys] at hne hclose ⊢
  obtain ⟨htail₁, htail₂, htail₃⟩ := nextNonNop_spec htail
  obtain ⟨hbranch₁, hbranch₂, hbranch₃⟩ := nextNonNop_spec hbranch
  obtain ⟨hlabel₁, hlabel₂, hlabel₃⟩ := nextNonNop_spec hlabel
  unfold isClose at hclose
  unfold isBranch at hisbranch
  unfold isHit at hhit
  rw [decide_eq_true_eq] at hclose hisbranch hhit
  obtain ⟨hcop, hcfloat, hctext, hcint, hcdest, hcsame, hcok, -⟩ := hclose
  obtain ⟨hbop, hbtemp, hbtext, hbname⟩ := hisbranch
  -- between the first test and the branch there are only links, the close and holes
  have honly : ∀ j, index ≤ j → j ≤ branch → (fn.insn j).op = .nop ∨
      (fn.insn j).op = .branchEq ∧ (fn.insn j).text = (fn.insn index).text ∨
      (fn.insn j).op = .binary ∧ (fn.insn j).text = some "==" ∧
        sameOperand (fn.insn j).lhs (fn.insn index).lhs = true ∨
      j = branch ∧ (fn.insn j).op = .branchZero := by
    intro j hj hj'
    rcases Nat.lt_trichotomy j tail with hlt | rfl | hgt
    · by_cases hin : j < index + n
      · exact (hscan.chain j hj hin).imp_right .inl
      · exact .inl (htail₃ j (by omega) hlt)
    · exact .inr (.inr (.inl ⟨hcop, hctext, hcsame⟩))
    · by_cases hlast : j = branch
      · rw [hlast]
        exact .inr (.inr (.inr ⟨rfl, hbop⟩))
      · exact .inl (hbranch₃ j (by omega) (by omega))
  have hfree : ∀ j, index ≤ j → j < label → (fn.insn j).op ≠ .label := by
    intro j hj hj' hl
    by_cases hjb : j ≤ branch
    · rcases honly j hj hjb with h | ⟨h, -⟩ | ⟨h, -⟩ | ⟨-, h⟩ <;> rw [h] at hl <;> cases hl
    · rw [hlabel₃ j (by omega) hj'] at hl
      cases hl
  obtain ⟨name, hname⟩ := isSome_iff_exists.mp htext
  obtain ⟨target, htarget⟩ := findLabel_of_insn hlabel₂ hhit.1 (hhit.2.2.trans hname)
  rw [← hname] at htarget
  refine ⟨label, ⟨by omega, by omega, hlabel₂⟩, hfirst, hbtext, ?_, honly,
    fun j hj hj' => hlabel₃ j (by omega) hj', ⟨hhit.1, hhit.2.2⟩, ?_⟩
  · intro k hk
    rcases mem_append.mp hk with hk | hk
    · exact hscan.keys k hk
    · rw [mem_singleton.mp hk]
      exact toNat_le_of_keyOk hcok
  · intro W H s w hw
    obtain ⟨hin, hout⟩ := hrun le_rfl (by omega : index + n ≤ label) hw htarget
    have hop' := (findLabel_op htarget).2
    by_cases hmem : w ∈ new
    · refine ⟨fun _ => toLabel_of_within (hin hmem) hop'.1 hop'.2 hfree, fun hnot => ?_⟩
      exact absurd (mem_append_left _ hmem) hnot
    · -- the closing comparison decides
      have hcmp : ∃ v, s.exec H fn (fn.insn tail) = s.storeDest H (fn.insn tail).dest v ∧
          v.isFloat = false ∧ v.i = if decide (w = (fn.insn tail).rhs.intValue) then 1 else 0 := by
        refine exec_binary_word hcop ?_ hcfloat (hasWord_of_same hcsame hw) (hasWord_int hcint) ?_
        · simp [Inst.isConcat, hctext]
        · rw [hctext]
          rfl
      obtain ⟨v, hexec, hvf, hvi⟩ := hcmp
      obtain ⟨s₁, hstore, hword⟩ := hasWord_storeDest_bool (s := s) (H := H) hcdest hvf hvi
      have hto_branch : Within H fn index label (.at index s) (.at branch s₁) := by
        refine (hout hmem).trans ((within_nops (by omega) htail₁ (by omega) (by omega) htail₃).trans ?_)
        refine .step (by omega) (by omega) ?_ (within_nops (by omega) hbranch₁ (by omega) (by omega) hbranch₃)
        rw [step_exec htail₂ (by rw [hcop]; rfl), hexec, hstore, map_some]
      have hcond : s₁.HasWord H (fn.insn branch).lhs (if decide (w = (fn.insn tail).rhs.intValue) then 1 else 0) := by
        obtain ⟨u, hu, hrest⟩ := hword
        refine ⟨u, ?_, hrest⟩
        rw [← hu]
        unfold Operand.isTemp at hbtemp hcdest
        rw [decide_eq_true_eq] at hbtemp hcdest
        exact fetch_congr (hbtemp.1.trans hcdest.1.symm) hbname (.inl hbtemp.1)
      have hkey : w ∈ new ++ [(fn.insn tail).rhs.intValue] ↔ w = (fn.insn tail).rhs.intValue := by
        rw [mem_append, mem_singleton]
        exact or_iff_right hmem
      rw [hkey]
      by_cases heq : w = (fn.insn tail).rhs.intValue
      · refine ⟨fun _ => ?_, fun hnot => absurd heq hnot⟩
        rw [if_pos (decide_eq_true heq)] at hcond
        have hto_label : Within H fn index label (.at index s) (.at label s₁) :=
          hto_branch.trans (.step (by omega) (by omega) (step_branchZero_of_ne hbranch₂ hbop hcond (by decide))
            (within_nops (by omega) hlabel₁ le_rfl (by omega) hlabel₃))
        exact toLabel_of_within hto_label hhit.1 hhit.2.2 hfree
      · refine ⟨fun hin => absurd hin heq, fun _ t ht => ?_⟩
        rw [if_neg (by simpa using heq)] at hcond
        have hstep := step_branchZero_of_eq hbranch₂ hbop hcond
        rw [ht, map_some] at hstep
        have hmiss := (findLabel_op ht).2
        exact toLabel_of_within (hto_branch.trans (.single (by omega) (by omega) hstep)) hmiss.1 hmiss.2 hfree

/-! ## The generated names -/

/-- The generated names of different letters or numbers differ. -/
theorem name_inj {c c' : Char} {n n' : ℕ} (h : name c n = name c' n') : c = c' ∧ n = n' := by
  have hlist := congrArg String.toList h
  simp only [name, String.toList_append, Char.toString, String.toList_singleton, List.append_assoc,
    append_cancel_left_eq, List.cons_append, nil_append, cons.injEq] at hlist
  refine ⟨hlist.1, ?_⟩
  have hdigits : Nat.toDigits 10 n = Nat.toDigits 10 n' := by
    simpa [Nat.toString_eq_repr, Nat.toList_repr] using hlist.2
  have := congrArg (Nat.ofDigitChars 10 · 0) hdigits
  simpa [Nat.ofDigitChars_ten_toDigits] using this

/-- No name that is still to be generated occurs in the function. -/
def Fresh (fn : Function) (id : ℕ) : Prop :=
  ∀ n ≥ id, ∀ c ∈ letters, name c n ∉ fn.parameterNames ∧ ∀ i ∈ fn.instructions,
    i.dest.name ≠ some (name c n) ∧ ∀ o ∈ i.operands, o.var ≠ some (name c n)

/-- A fresh name is a temporary of 64 bits. -/
theorem Fresh.wide {id : ℕ} (h : Fresh fn id) (H : Host W) {c : Char} (hc : c ∈ letters) : Wide H fn (name c id) where
  declared := fun i hi _ hdest => absurd hdest ((h id le_rfl c hc).2 i hi).1
  parameter := fun _ hk => absurd (mem_of_getElem? hk) (h id le_rfl c hc).1

/-! ## The replacement -/

section Replacement

variable {index branch : ℕ} {keys : List (BitVec 64)} {id : ℕ}

/-- The instructions after `NOP`s were inserted. -/
theorem insn_insertNops {count k : ℕ} (hindex : index ≤ fn.instructions.length) : (insertNops fn index count).insn k =
      if k < index then fn.insn k else if k < index + count then {} else fn.insn (k - count) := by
  unfold insertNops Function.insn
  rw [List.append_assoc, getD_eq_getElem?_getD]
  by_cases hk : k < index
  · rw [if_pos hk, List.getElem?_append_left (by rw [length_take]; omega),
      List.getElem?_take_of_lt hk, getD_eq_getElem?_getD]
  · rw [if_neg hk, List.getElem?_append_right (by rw [length_take]; omega), length_take, Nat.min_eq_left hindex]
    by_cases hk' : k < index + count
    · rw [if_pos hk', List.getElem?_append_left (by rw [length_replicate]; omega),
        List.getElem?_replicate_of_lt (by omega)]
      rfl
    · rw [if_neg hk', List.getElem?_append_right (by rw [length_replicate]; omega),
        length_replicate, List.getElem?_drop, getD_eq_getElem?_getD]
      congr 2
      omega

/-- How many there are then. -/
theorem length_insertNops (count : ℕ) (hindex : index ≤ fn.instructions.length) :
    (insertNops fn index count).instructions.length = fn.instructions.length + count := by
  unfold insertNops
  simp only [length_append, length_take, length_replicate, length_drop]
  omega

/-- The instructions after the test was written over the chain. -/
theorem insn_emit {first last : ℕ} {value : Operand} {m k : BitVec 64} {miss : Option String} {j : ℕ}
    (hj : j < fn.instructions.length) :
    (emit fn first last value m k miss id).insn j =
      if first ≤ j ∧ j ≤ last then slot value m k miss id (j - first) (fn.insn j).makeNop
      else fn.insn j := by
  unfold emit Function.insn
  rw [getD_eq_getElem _ _ (by rw [length_mapIdx]; exact hj), getElem_mapIdx, getD_eq_getElem _ _ hj]

/-- The rewriting inserts at most what the test needs. -/
theorem length_rewriteChain (hindex : index ≤ fn.instructions.length) :
    (rewriteChain fn index branch keys id).instructions.length = fn.instructions.length + extra index branch := by
  rw [rewriteChain, emit, length_mapIdx, length_insertNops _ hindex]

/-- The slots of the replacement. -/
theorem insn_slot {j : ℕ} (hindex : index ≤ fn.instructions.length) (hbranch : branch < fn.instructions.length)
    (hj : index ≤ j) (hj' : j ≤ branch + extra index branch) :
    ∃ i : Inst, i.op = .nop ∧ i.isFloat = false ∧ (rewriteChain fn index branch keys id).insn j =
      slot (fn.insn index).lhs (mask keys) (maxKey keys) (fn.insn branch).text id (j - index) i := by
  refine ⟨((insertNops fn index (extra index branch)).insn j).makeNop, rfl, rfl, ?_⟩
  rw [rewriteChain, insn_emit (by rw [length_insertNops _ hindex]; omega), if_pos ⟨hj, hj'⟩]

/-- Everything behind the replacement is kept. -/
theorem insn_behind {j : ℕ} (hindex : index ≤ branch) (hj : branch < j) (hlen : j < fn.instructions.length) :
    (rewriteChain fn index branch keys id).insn (j + extra index branch) = fn.insn j := by
  rw [rewriteChain, insn_emit (by rw [length_insertNops _ (by omega)]; omega), if_neg (by omega),
    insn_insertNops (by omega), if_neg (by omega), if_neg (by omega), Nat.add_sub_cancel]

/-- Behind the chain the function is as before. -/
theorem drop_behind (hindex : index ≤ branch) (hbranch : branch < fn.instructions.length) :
    (rewriteChain fn index branch keys id).instructions.drop (branch + 1 + extra index branch) =
      fn.instructions.drop (branch + 1) := by
  have hlen := @length_rewriteChain fn index branch keys id (by omega)
  refine ext_getElem (by simp only [length_drop, hlen]; omega) ?_
  intro j h₁ h₂
  rw [length_drop] at h₂
  have hmove := @insn_behind fn index branch keys id (branch + 1 + j) hindex (by omega) (by omega)
  rw [getElem_drop, getElem_drop, getElem_insn, getElem_insn, ← hmove]
  congr 1
  omega

/-- Everything before the replacement is kept. -/
theorem take_before (hindex : index ≤ fn.instructions.length) :
    (rewriteChain fn index branch keys id).instructions.take index = fn.instructions.take index := by
  refine ext_getElem ?_ ?_
  · rw [length_take, length_take, length_rewriteChain hindex]
    omega
  · intro j h₁ h₂
    rw [length_take] at h₂
    rw [getElem_take, getElem_take, getElem_insn, getElem_insn, rewriteChain,
      insn_emit (by rw [length_insertNops _ hindex]; omega), if_neg (by omega), insn_insertNops hindex,
      if_pos (by omega)]

theorem extra_le (hindex : index < branch) : index + 6 ≤ branch + extra index branch := by
  unfold extra
  omega

/-- No label is generated. -/
theorem slot_ne_label (value : Operand) (m k : BitVec 64) (miss : Option String) (id n : ℕ) {i : Inst}
    (hi : i.op = .nop) : (slot value m k miss id n i).op ≠ .label := by
  unfold slot
  split <;> simp [hi]

/-- What is left of the chain are `NOP`s. -/
theorem slot_nop (value : Operand) (m k : BitVec 64) (miss : Option String) (id : ℕ) {n : ℕ} {i : Inst}
    (hi : i.op = .nop) (hn : 6 < n) : (slot value m k miss id n i).op = .nop := by
  match n, hn with
  | n + 7, _ => exact hi

/-- What is known of the code of a replacement. -/
structure Slots (fn out : Function) (index : ℕ) (keys : List (BitVec 64)) (branch stop id : ℕ) : Prop where
  stop_lt : index + 6 < stop ∧ stop < out.instructions.length
  slot : ∀ n ≤ 6, ∃ i : Inst, i.isFloat = false ∧ out.insn (index + n) =
    slot (fn.insn index).lhs (mask keys) (maxKey keys) (fn.insn branch).text id n i
  nops : ∀ j, index + 7 ≤ j → j < stop → (out.insn j).op = .nop
  free : ∀ j, index ≤ j → j < stop → (out.insn j).op ≠ .label
  label : (out.insn stop).op = .label ∧ (out.insn stop).text = (fn.insn index).text

/-- The rewritten function has the seven instructions of the test in the place of the chain. -/
theorem Chain.slots {label : ℕ} (h : Chain fn index keys branch label) (id : ℕ) :
    Slots fn (rewriteChain fn index branch keys id) index keys branch (label + extra index branch) id := by
  obtain ⟨hib, hbl, hlen⟩ := h.ordered
  have hroom := extra_le hib
  have hindex : index ≤ fn.instructions.length := by omega
  have hslot := fun j hj hj' => @insn_slot fn index branch keys id j hindex (by omega) hj hj'
  have hlabel := @insn_behind fn index branch keys id label hib.le hbl hlen
  have hgap : ∀ j, branch + extra index branch < j → j < label + extra index branch →
      ((rewriteChain fn index branch keys id).insn j).op = .nop := by
    intro j hj hj'
    have := @insn_behind fn index branch keys id (j - extra index branch) hib.le (by omega) (by omega)
    rw [Nat.sub_add_cancel (by omega)] at this
    rw [this]
    exact h.gap _ (by omega) (by omega)
  refine ⟨⟨by omega, by rw [length_rewriteChain hindex]; omega⟩, ?_, ?_, ?_, ?_⟩
  · intro n hn
    obtain ⟨i, -, hfloat, hinsn⟩ := hslot (index + n) (by omega) (by omega)
    rw [Nat.add_sub_cancel_left] at hinsn
    exact ⟨i, hfloat, hinsn⟩
  · intro j hj hj'
    by_cases hjb : j ≤ branch + extra index branch
    · obtain ⟨i, hi, -, hinsn⟩ := hslot j (by omega) hjb
      rw [hinsn]
      exact slot_nop _ _ _ _ _ hi (by omega)
    · exact hgap j (by omega) hj'
  · intro j hj hj'
    by_cases hjb : j ≤ branch + extra index branch
    · obtain ⟨i, hi, -, hinsn⟩ := hslot j hj hjb
      rw [hinsn]
      exact slot_ne_label _ _ _ _ _ _ hi
    · rw [hgap j (by omega) hj']
      decide
  · rw [hlabel]
    exact h.hit

namespace Slots

variable {out : Function} {stop : ℕ} {w : BitVec 64}

section

variable {n : ℕ} {c : Char} (h : Slots fn out index keys branch stop id) (hfresh : Fresh fn id) (hn : n ≤ 6)
    (hc : c ∈ letters)
include h hfresh hn hc

/-- A slot that writes a generated temporary. -/
theorem step_temp {v : Value} (hop : (out.insn (index + n)).op.isControl = false)
    (hexec : s.exec H out (out.insn (index + n)) = s.storeDest H (.ofTemp (name c id)) v) (hfloat : v.isFloat = false)
    (hs : s.Widths H fn) :
    ∃ s', Within H out index stop (.at (index + n) s) (.at (index + (n + 1)) s') ∧
      s'.HasWord H (.ofTemp (name c id)) v.i ∧ s'.Widths H fn ∧
      ∀ o w, o.var ≠ some (name c id) → s.HasWord H o w → s'.HasWord H o w := by
  obtain ⟨s', hstore, hword, hwidths, hframe⟩ := hasWord_storeDest_wide hs (hfresh.wide H hc) hfloat
  have hstop := h.stop_lt
  refine ⟨s', .single (by omega) (by omega) ?_, hword, hwidths, fun o w ho hw => hw.congr (hframe o ho)⟩
  rw [step_exec (by omega) hop, hexec, hstore, map_some]
  rfl

/-- A slot that computes with words. -/
theorem step_binary {a b r : BitVec 64} (hop : (out.insn (index + n)).op = .binary)
    (hdest : (out.insn (index + n)).dest = .ofTemp (name c id)) (htext : (out.insn (index + n)).text ≠ some "+")
    (ha : s.HasWord H (out.insn (index + n)).lhs a) (hb : s.HasWord H (out.insn (index + n)).rhs b)
    (hr : binaryInt ((out.insn (index + n)).text.getD "?") (out.insn (index + n)).isUnsigned a b = some (.ofInt r))
    (hfloat : (out.insn (index + n)).isFloat = false) (hs : s.Widths H fn) :
    ∃ s', Within H out index stop (.at (index + n) s) (.at (index + (n + 1)) s') ∧
      s'.HasWord H (.ofTemp (name c id)) r ∧ s'.Widths H fn ∧
      ∀ o w, o.var ≠ some (name c id) → s.HasWord H o w → s'.HasWord H o w := by
  have hconcat : (out.insn (index + n)).isConcat = false := by simp [Inst.isConcat, htext]
  obtain ⟨v, hexec, hvf, hvi⟩ := exec_binary_word hop hconcat hfloat ha hb hr
  rw [hdest] at hexec
  rw [← hvi]
  exact h.step_temp hfresh hn hc (by rw [hop]; rfl) hexec hvf hs

/-- A slot that loads a literal. -/
theorem step_literal {a : BitVec 64} (hop : (out.insn (index + n)).op = .assign)
    (hdest : (out.insn (index + n)).dest = .ofTemp (name c id)) (hlhs : (out.insn (index + n)).lhs = .ofInt a)
    (hs : s.Widths H fn) :
    ∃ s', Within H out index stop (.at (index + n) s) (.at (index + (n + 1)) s') ∧
      s'.HasWord H (.ofTemp (name c id)) a ∧ s'.Widths H fn ∧
      ∀ o w, o.var ≠ some (name c id) → s.HasWord H o w → s'.HasWord H o w := by
  have hexec := @exec_assign_literal W H out s (out.insn (index + n)) hop a hlhs
  rw [hdest] at hexec
  exact h.step_temp hfresh hn hc (by rw [hop]; rfl) hexec rfl hs

end

section

variable (h : Slots fn out index keys branch stop id)
include h

/-- The guard: the words up to the largest key. -/
theorem guard (hfresh : Fresh fn id) (hs : s.Widths H fn) (hw : s.HasWord H (fn.insn index).lhs w) :
    ∃ s', Within H out index stop (.at index s) (.at (index + 1) s') ∧
      s'.HasWord H (.ofTemp (name 'g' id)) (if w.ule (maxKey keys) then 1 else 0) ∧ s'.Widths H fn ∧
      ∀ o w, o.var ≠ some (name 'g' id) → s.HasWord H o w → s'.HasWord H o w := by
  obtain ⟨i, hfloat, hinsn⟩ := h.slot 0 (by omega)
  refine h.step_binary hfresh (n := 0) (by omega) (c := 'g') (by decide) (a := w) (b := maxKey keys)
    (by rw [hinsn]; rfl) (by rw [hinsn]; rfl) (by rw [hinsn]; simp [Bitset.slot])
    (by rw [hinsn]; exact hw) (by rw [hinsn]; exact hasWord_ofInt _) ?_ (by rw [hinsn]; exact hfloat) hs
  rw [hinsn]
  rfl

/-- The bit of the word in the mask, for a word that the guard has let through. -/
theorem bit (hfresh : Fresh fn id) (hs : s.Widths H fn)
    (hvalue : ∀ c ∈ letters, (fn.insn index).lhs.var ≠ some (name c id)) (hw : s.HasWord H (fn.insn index).lhs w) :
    ∃ s', Within H out index stop (.at (index + 2) s) (.at (index + 6) s') ∧
      s'.HasWord H (.ofTemp (name 'a' id)) ((1#64 <<< (w.toNat % 64)) &&& mask keys) := by
  obtain ⟨i₂, -, hone⟩ := h.slot 2 (by omega)
  obtain ⟨i₃, hf₃, hshift⟩ := h.slot 3 (by omega)
  obtain ⟨i₄, -, hmask⟩ := h.slot 4 (by omega)
  obtain ⟨i₅, hf₅, hand⟩ := h.slot 5 (by omega)
  have hkept : (Operand.ofTemp (name 's' id)).var ≠ some (name 'm' id) := by
    intro heq
    have : name 's' id = name 'm' id := by simpa [Operand.ofTemp, Operand.var] using heq
    exact absurd (name_inj this).1 (by decide)
  obtain ⟨s₁, hrun₁, hword₁, hs₁, hframe₁⟩ := h.step_literal hfresh (n := 2) (by omega) (c := 'o')
    (by decide) (by rw [hone]; rfl) (by rw [hone]; rfl) (by rw [hone]; rfl) hs
  have hw₁ := hframe₁ _ _ (hvalue 'o' (by decide)) hw
  obtain ⟨s₂, hrun₂, hword₂, hs₂, -⟩ := h.step_binary hfresh (n := 3) (by omega) (c := 's') (by decide)
    (by rw [hshift]; rfl) (by rw [hshift]; rfl) (by rw [hshift]; simp [Bitset.slot])
    (by rw [hshift]; exact hword₁) (by rw [hshift]; exact hw₁) (r := 1#64 <<< (w.toNat % 64))
    (by
      rw [hshift]
      rfl)
    (by rw [hshift]; exact hf₃) hs₁
  obtain ⟨s₃, hrun₃, hword₃, hs₃, hframe₃⟩ := h.step_literal hfresh (n := 4) (by omega) (c := 'm')
    (by decide) (by rw [hmask]; rfl) (by rw [hmask]; rfl) (by rw [hmask]; rfl) hs₂
  have hword₂' := hframe₃ _ _ hkept hword₂
  obtain ⟨s₄, hrun₄, hword₄, -, -⟩ := h.step_binary hfresh (n := 5) (by omega) (c := 'a') (by decide)
    (by rw [hand]; rfl) (by rw [hand]; rfl) (by rw [hand]; simp [Bitset.slot])
    (by rw [hand]; exact hword₂') (by rw [hand]; exact hword₃)
    (r := (1#64 <<< (w.toNat % 64)) &&& mask keys)
    (by
      rw [hand]
      simp only [Bitset.slot, getD_some, binaryInt, String.reduceEq, if_false, if_true])
    (by rw [hand]; exact hf₅) hs₃
  exact ⟨s₄, hrun₁.trans (hrun₂.trans (hrun₃.trans hrun₄)), hword₄⟩

/-- A branch of the replacement that is taken. -/
theorem toMiss {n : ℕ} (hn : n ≤ 6) (hop : (out.insn (index + n)).op = .branchZero)
    (htext : (out.insn (index + n)).text = (fn.insn branch).text)
    (hrun : Within H out index stop (.at index s) (.at (index + n) s'))
    (hzero : s'.HasWord H (out.insn (index + n)).lhs 0) {t : ℕ} (ht : out.findLabel (fn.insn branch).text = some t) :
    ToLabel H out index stop s (fn.insn branch).text := by
  have hstop := h.stop_lt
  have hstep := step_branchZero_of_eq (by omega) hop hzero
  rw [htext, ht, map_some] at hstep
  have hmiss := (findLabel_op ht).2
  exact toLabel_of_within (hrun.trans (.single (by omega) (by omega) hstep)) hmiss.1 hmiss.2 h.free

/-- The replacement leaves for the label of the chain on the keys, and else for the other label. -/
theorem leaves (hfresh : Fresh fn id) (hkeys : ∀ k ∈ keys, k.toNat ≤ 62)
    (hvalue : ∀ c ∈ letters, (fn.insn index).lhs.var ≠ some (name c id)) (hs : s.Widths H fn)
    (hw : s.HasWord H (fn.insn index).lhs w) :
    (w ∈ keys → ToLabel H out index stop s (fn.insn index).text) ∧
    (w ∉ keys → ∀ t, out.findLabel (fn.insn branch).text = some t →
      ToLabel H out index stop s (fn.insn branch).text) := by
  have hstop := h.stop_lt
  obtain ⟨hle, hmax⟩ := le_maxKey hkeys
  have hule : w.ule (maxKey keys) = true ↔ w.toNat ≤ (maxKey keys).toNat := by
    rw [BitVec.ule, decide_eq_true_eq]
  obtain ⟨i₁, -, hinsn₁⟩ := h.slot 1 (by omega)
  obtain ⟨i₆, -, hinsn₆⟩ := h.slot 6 (by omega)
  have hop₁ : (out.insn (index + 1)).op = .branchZero := by rw [hinsn₁]; rfl
  have hop₆ : (out.insn (index + 6)).op = .branchZero := by rw [hinsn₆]; rfl
  have hlhs₁ : (out.insn (index + 1)).lhs = .ofTemp (name 'g' id) := by rw [hinsn₁]; rfl
  have hlhs₆ : (out.insn (index + 6)).lhs = .ofTemp (name 'a' id) := by rw [hinsn₆]; rfl
  -- the guard first: the word is at most the largest key
  obtain ⟨s₁, hrun₁, hword₁, hs₁, hframe₁⟩ := h.guard hfresh hs hw
  rw [← hlhs₁] at hword₁
  by_cases hguard : w.ule (maxKey keys) = true
  · rw [if_pos hguard] at hword₁
    -- then the bit of the word in the mask
    obtain ⟨s₂, hrun₂, hword₂⟩ := h.bit hfresh hs₁ hvalue (hframe₁ _ _ (hvalue 'g' (by decide)) hw)
    rw [← hlhs₆] at hword₂
    have hrun : Within H out index stop (.at index s) (.at (index + 6) s₂) :=
      hrun₁.trans (.step (by omega) (by omega) (step_branchZero_of_ne (by omega) hop₁ hword₁ (by decide)) hrun₂)
    have hbit := mask_and_ne_zero hkeys ((hule.mp hguard).trans hmax)
    constructor
    · intro hin
      have hto_label : Within H out index stop (.at index s) (.at stop s₂) :=
        hrun.trans (.step (by omega) (by omega) (step_branchZero_of_ne (by omega) hop₆ hword₂ (hbit.mpr hin))
          (within_nops (by omega) (by omega) le_rfl (by omega) h.nops))
      exact toLabel_of_within hto_label h.label.1 h.label.2 h.free
    · intro hnot t ht
      rw [not_not.mp (mt hbit.mp hnot)] at hword₂
      exact h.toMiss (by omega) hop₆ (by rw [hinsn₆]; rfl) hrun hword₂ ht
  -- above the largest key the guard has branched already
  · rw [if_neg hguard] at hword₁
    refine ⟨fun hin => absurd (hule.mpr (hle w hin)) hguard, fun _ t ht => ?_⟩
    exact h.toMiss (by omega) hop₁ (by rw [hinsn₁]; rfl) hrun₁ hword₁ ht

end

end Slots

/-- Where the instructions of a replacement come from. -/
theorem insn_rewriteChain {j : ℕ} (hindex : index ≤ branch) (hbranch : branch < fn.instructions.length)
    (hj : j < (rewriteChain fn index branch keys id).instructions.length) :
    (∃ k < fn.instructions.length, (rewriteChain fn index branch keys id).insn j = fn.insn k) ∨
    ∃ n, ∃ i : Inst, (rewriteChain fn index branch keys id).insn j =
      slot (fn.insn index).lhs (mask keys) (maxKey keys) (fn.insn branch).text id n i.makeNop := by
  rw [length_rewriteChain (by omega)] at hj
  rw [rewriteChain, insn_emit (by rw [length_insertNops _ (by omega)]; exact hj)]
  by_cases hin : index ≤ j ∧ j ≤ branch + extra index branch
  · rw [if_pos hin]
    exact .inr ⟨_, _, rfl⟩
  · rw [if_neg hin, insn_insertNops (by omega)]
    by_cases hbefore : j < index
    · rw [if_pos hbefore]
      exact .inl ⟨j, by omega, rfl⟩
    · rw [if_neg hbefore, if_neg (by omega)]
      exact .inl ⟨j - extra index branch, by omega, rfl⟩

/-- The names of a slot: those of the site, and that of the tested operand. -/
theorem slot_names {value : Operand} {m k : BitVec 64} {miss : Option String} {n : ℕ} {i : Inst}
    {x : String} (hvalue : value.var ≠ some x) (hx : ∀ c, x ≠ name c id) :
    (slot value m k miss id n i.makeNop).dest.name ≠ some x ∧
      ∀ o ∈ (slot value m k miss id n i.makeNop).operands, o.var ≠ some x := by
  have htemp : ∀ c, (Operand.ofTemp (name c id)).var ≠ some x := by
    intro c hc
    exact hx c (by simpa [Operand.ofTemp, Operand.var, eq_comm] using hc)
  have hnone : ({ intValue := 0#64, floatValue := 0#64 } : Operand).var ≠ some x := by
    simp [Operand.var]
  have hint : ∀ a, (Operand.ofInt a).var ≠ some x := by simp [Operand.ofInt, Operand.var]
  have hdest : ∀ c, (Operand.ofTemp (name c id)).name ≠ some x := by
    intro c hc
    exact hx c (by simpa [Operand.ofTemp, eq_comm] using hc)
  unfold slot
  split <;> simp [Inst.operands, Inst.makeNop, hvalue, htemp, hnone, hint, hdest]

/-- The next names are fresh after a rewriting. -/
theorem Fresh.rewriteChain (h : Fresh fn id) (hindex : index ≤ branch) (hbranch : branch < fn.instructions.length) :
    Fresh (Bitset.rewriteChain fn index branch keys id) (id + 1) := by
  intro n hn c hc
  refine ⟨(h n (by omega) c hc).1, fun i hi => ?_⟩
  obtain ⟨j, hj, rfl⟩ := mem_iff_getElem.mp hi
  rw [getElem_insn]
  have hmem : ∀ k, k < fn.instructions.length → fn.insn k ∈ fn.instructions := by
    intro k hk
    rw [← getElem_insn fn hk]
    exact getElem_mem _
  rcases insn_rewriteChain hindex hbranch hj with ⟨k, hk, hinsn⟩ | ⟨m, i, hinsn⟩
  · rw [hinsn]
    exact (h n (by omega) c hc).2 _ (hmem k hk)
  · rw [hinsn]
    refine slot_names ?_ fun c' heq => ?_
    · exact ((h n (by omega) c hc).2 _ (hmem index (by omega))).2 _ (by simp [Inst.operands])
    · have := (name_inj heq).2
      omega

end Replacement

/-! ## The pass -/

/-- A site that the pass has rewritten. -/
structure Site (fn out : Function) (index branch label : ℕ) (keys : List (BitVec 64)) : Prop where
  chain : Chain fn index keys branch label
  before : out.instructions.take index = fn.instructions.take index
  behind : out.instructions.drop (branch + 1 + extra index branch) = fn.instructions.drop (branch + 1)
  /-- both leave for the same label, the one before the site or the one after its last branch -/
  leaves : ∀ {W : Type} {H : Host W} {s : State W} {w : BitVec 64}, s.Widths H fn →
    s.HasWord H (fn.insn index).lhs w →
    (w ∈ keys → ToLabel H fn index label s (fn.insn index).text ∧
      ToLabel H out index (label + extra index branch) s (fn.insn index).text) ∧
    (w ∉ keys → ∀ t, fn.findLabel (fn.insn branch).text = some t →
      ToLabel H fn index label s (fn.insn branch).text ∧
      ToLabel H out index (label + extra index branch) s (fn.insn branch).text)

/-- One round rewrites one chain. -/
theorem once_spec {id : ℕ} {out : Function} (h : once fn id = some out) :
    ∃ index branch keys label, Chain fn index keys branch label ∧ out = rewriteChain fn index branch keys id := by
  obtain ⟨index, -, hsome⟩ := List.exists_of_findSome?_eq_some h
  rw [map_eq_some_iff] at hsome
  obtain ⟨⟨keys, branch⟩, hmatch, rfl⟩ := hsome
  obtain ⟨label, hchain⟩ := matchChain_spec hmatch
  exact ⟨index, branch, keys, label, hchain, rfl⟩

/-- A label is kept. -/
theorem Chain.findLabel {index branch label id t : ℕ} {keys : List (BitVec 64)}
    (h : Chain fn index keys branch label) (ht : fn.findLabel (fn.insn branch).text = some t) :
    ∃ t', (rewriteChain fn index branch keys id).findLabel (fn.insn branch).text = some t' := by
  obtain ⟨hib, hbl, hlen⟩ := h.ordered
  obtain ⟨htlen, hop, htext⟩ := findLabel_op ht
  obtain ⟨miss, hmiss⟩ := isSome_iff_exists.mp h.miss
  have hout := @length_rewriteChain fn index branch keys id (by omega)
  rw [hmiss] at htext ⊢
  by_cases hbehind : branch < t
  · have hinsn := @insn_behind fn index branch keys id t hib.le hbehind htlen
    exact findLabel_of_insn (j := t + extra index branch) (by omega) (by rw [hinsn]; exact hop)
      (by rw [hinsn]; exact htext)
  · have hbefore : t < index := by
      by_contra hge
      rcases h.only t (by omega) (by omega) with h | ⟨h, -⟩ | ⟨h, -⟩ | ⟨-, h⟩ <;> rw [h] at hop <;> cases hop
    have hinsn : (rewriteChain fn index branch keys id).insn t = fn.insn t := by
      rw [rewriteChain, insn_emit (by rw [length_insertNops _ (by omega)]; omega), if_neg (by omega),
        insn_insertNops (by omega), if_pos hbefore]
    exact findLabel_of_insn (j := t) (by omega) (by rw [hinsn]; exact hop) (by rw [hinsn]; exact htext)

/-- The rewriting of a chain does what the chain did, on both ways. -/
theorem Chain.site {index branch label id : ℕ} {keys : List (BitVec 64)}
    (h : Chain fn index keys branch label) (hfresh : Fresh fn id) :
    Site fn (rewriteChain fn index branch keys id) index branch label keys := by
  obtain ⟨hib, hbl, hlen⟩ := h.ordered
  have hvalue : ∀ c ∈ letters, (fn.insn index).lhs.var ≠ some (name c id) := by
    intro c hc
    have hmem : fn.insn index ∈ fn.instructions := by
      rw [← getElem_insn fn (by omega)]
      exact getElem_mem _
    exact ((hfresh id le_rfl c hc).2 _ hmem).2 _ (by simp [Inst.operands])
  refine ⟨h, take_before (by omega), drop_behind hib.le (by omega), ?_⟩
  intro W H s w hs hw
  obtain ⟨hhit, hmiss⟩ := h.run hw
  obtain ⟨hhit', hmiss'⟩ := (h.slots id).leaves hfresh h.keys_le hvalue hs hw
  refine ⟨fun hin => ⟨hhit hin, hhit' hin⟩, fun hnot t ht => ⟨hmiss hnot t ht, ?_⟩⟩
  obtain ⟨t', ht'⟩ : ∃ t', (rewriteChain fn index branch keys id).findLabel _ = some t' := h.findLabel ht
  exact hmiss' hnot t' ht'

/-- The rounds generate new names. -/
theorem Fresh.rounds {id : ℕ} (h : Fresh fn id) (k : ℕ) :
    Fresh (Bitset.rounds k (fn, id)).1 (Bitset.rounds k (fn, id)).2 := by
  induction k generalizing fn id with
  | zero => exact h
  | succ k ih =>
    rw [Bitset.rounds]
    split
    · exact h
    · rename_i out hout
      obtain ⟨index, branch, keys, label, hchain, rfl⟩ := once_spec hout
      obtain ⟨hib, hbl, hlen⟩ := hchain.ordered
      exact ih (h.rewriteChain hib.le (by omega))

/-- Every site the pass rewrites, in whatever round, leaves for the label its chain leaves for, and
every other instruction is kept. -/
theorem pass_site {id k : ℕ} {out : Function} (hfresh : Fresh fn id)
    (hout : once (Bitset.rounds k (fn, id)).1 (Bitset.rounds k (fn, id)).2 = some out) :
    ∃ index branch label keys, Site (Bitset.rounds k (fn, id)).1 out index branch label keys := by
  obtain ⟨index, branch, keys, label, hchain, rfl⟩ := once_spec hout
  exact ⟨index, branch, label, keys, hchain.site (hfresh.rounds k)⟩

/-- `x == 1 || x == 4 || x == 9 || x == 16`. -/
def squares : Function where
  parameterNames := ["x"]
  instructions := [
    { op := .branchEq, lhs := .ofSymbol "x", rhs := .ofInt 1, text := some "square" },
    { op := .branchEq, lhs := .ofSymbol "x", rhs := .ofInt 4, text := some "square" },
    {},
    { op := .branchEq, lhs := .ofSymbol "x", rhs := .ofInt 9, text := some "square" },
    { op := .binary, dest := .ofTemp "t", lhs := .ofSymbol "x", rhs := .ofInt 16, text := some "==" },
    { op := .branchZero, lhs := .ofTemp "t", text := some "other" },
    { op := .label, text := some "square" },
    { op := .return, lhs := .ofInt 1 },
    { op := .label, text := some "other" },
    { op := .return, lhs := .ofInt 0 }]

theorem squares_fresh : Fresh squares 0 := by
  intro n _ c _
  have hne : ∀ x : String, x.toList.head? ≠ some '_' → x ≠ name c n := by
    rintro x hx rfl
    simp [name] at hx
  have hx : "x" ≠ name c n := hne _ (by decide)
  have ht : "t" ≠ name c n := hne _ (by decide)
  refine ⟨by simpa [squares] using hx.symm, fun i hi => ?_⟩
  simp only [squares, mem_cons, not_mem_nil, or_false] at hi
  rcases hi with rfl | rfl | rfl | rfl | rfl | rfl | rfl | rfl | rfl | rfl <;>
    simp [Inst.operands, Operand.var, Operand.ofSymbol, Operand.ofTemp, Operand.ofInt, hx, ht]

theorem pass_site_squares :
    ∃ out index branch label keys, once squares 0 = some out ∧
      Site squares out index branch label keys := by
  have hsome : (once squares 0).isSome := by decide
  obtain ⟨out, hout⟩ := Option.isSome_iff_exists.mp hsome
  obtain ⟨index, branch, label, keys, hsite⟩ := pass_site (k := 0) squares_fresh hout
  exact ⟨out, index, branch, label, keys, hout, hsite⟩

end Mettle.Ir.Bitset

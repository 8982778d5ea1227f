import Mettle.Arm64.Emit
import Mettle.Arm64.Instruction

/-!
# Finalized branches

Whatever was emitted, finalizing turns the word at each recorded branch into the branch to its label.
-/

namespace Mettle.Arm64

open Mettle.Bytes List

/-- The bytes a fixup owns. -/
def FixKind.bytes : FixKind → ℕ
  | .abs64Mov => 16
  | _ => 4

namespace Emit

/-- A fixup stands at a word of the code, on a branch to itself if it is one of a branch. -/
structure FixupOk (code : List (BitVec 8)) (f : Fixup) : Prop where
  aligned : f.site % 4 = 0
  within : f.site + f.kind.bytes ≤ code.length
  branch : f.kind ≠ .abs64Mov → ∃ branch : Branch, branch.kind = f.kind ∧ load32 code f.site = branch.word 0

/-- What every series of calls keeps. -/
structure WellFormed (e : Emit) : Prop where
  codeAligned : e.code.length % 4 = 0
  labelAligned : ∀ l ∈ e.labels, l.off % 4 = 0
  fixups : ∀ f ∈ e.fixups, FixupOk e.code f
  apart : e.fixups.Pairwise fun f g => f.site + f.kind.bytes ≤ g.site

/-- A fixup stays in order as code is appended. -/
theorem FixupOk.append {code data : List (BitVec 8)} {f : Fixup} (h : FixupOk code f) : FixupOk (code ++ data) f where
  aligned := h.aligned
  within := by
    have := h.within
    rw [length_append]
    omega
  branch hkind := by
    obtain ⟨branch, hbranch, hload⟩ := h.branch hkind
    refine ⟨branch, hbranch, ?_⟩
    rw [← hload]
    apply load32_append
    have hwithin := h.within
    have hbytes : 4 ≤ f.kind.bytes := by cases f.kind <;> decide
    omega

namespace WellFormed

variable {e : Emit}

theorem init : WellFormed Emit.init :=
  ⟨rfl, fun _ hl => absurd hl not_mem_nil, fun _ hf => absurd hf not_mem_nil, .nil⟩

section

variable (h : WellFormed e)
include h

/-- More code in whole words. -/
theorem append {data : List (BitVec 8)} (hdata : data.length % 4 = 0) :
    WellFormed { e with code := e.code ++ data } where
  codeAligned := by
    have := h.codeAligned
    simp only [length_append]
    omega
  labelAligned := h.labelAligned
  fixups f hf := (h.fixups f hf).append
  apart := h.apart

theorem emitWord (w : BitVec 32) : WellFormed (e.emitWord w).2 := by
  unfold Emit.emitWord
  split
  · exact ⟨h.codeAligned, h.labelAligned, h.fixups, h.apart⟩
  · exact h.append (by rw [leBytes_length])

theorem emitBytes (data : List (BitVec 8)) : WellFormed (e.emitBytes data).2 := by
  unfold Emit.emitBytes
  split
  · exact ⟨h.codeAligned, h.labelAligned, h.fixups, h.apart⟩
  · simp only [append_assoc]
    apply h.append
    rw [length_append, length_replicate]
    omega

theorem newLabel : WellFormed e.newLabel.2 := by
  unfold Emit.newLabel
  split
  · exact h
  · refine ⟨h.codeAligned, ?_, h.fixups, h.apart⟩
    intro l hl
    rcases mem_append.mp hl with hold | hnew
    · exact h.labelAligned l hold
    · rw [mem_singleton.mp hnew]
      rfl

theorem bindLabel (label : ℤ) : WellFormed (e.bindLabel label) := by
  unfold Emit.bindLabel
  split
  · exact ⟨h.codeAligned, h.labelAligned, h.fixups, h.apart⟩
  · refine ⟨h.codeAligned, ?_, h.fixups, h.apart⟩
    intro l hl
    rcases mem_or_eq_of_mem_set hl with hold | rfl
    · exact h.labelAligned l hold
    · exact h.codeAligned

/-- A fixup for the code emitted last. -/
theorem addFixup {data : List (BitVec 8)} {label : ℤ} {kind : FixKind} {error : Bool}
    (hdata : data.length = kind.bytes)
    (hbranch : kind ≠ .abs64Mov → ∃ branch : Branch, branch.kind = kind ∧ data = leBytes 4 (branch.word 0).toNat) :
    WellFormed ⟨e.code ++ data, e.labels, e.fixups ++ [⟨e.code.length, label, kind⟩], error, e.codeVaddr⟩ where
  codeAligned := by
    have hcode := h.codeAligned
    have hbytes : kind.bytes % 4 = 0 := by cases kind <;> rfl
    simp only [length_append]
    omega
  labelAligned := h.labelAligned
  fixups f hf := by
    rcases mem_append.mp hf with hold | hnew
    · exact (h.fixups f hold).append
    · rw [mem_singleton.mp hnew]
      refine ⟨h.codeAligned, by simp [hdata], ?_⟩
      intro hkind
      obtain ⟨branch, hsame, rfl⟩ := hbranch hkind
      exact ⟨branch, hsame, load32_append_self⟩
  apart := by
    refine pairwise_append.mpr ⟨h.apart, pairwise_singleton _ _, ?_⟩
    intro f hf g hg
    rw [mem_singleton.mp hg]
    exact (h.fixups f hf).within

/-- It stays so when a branch is emitted, with its fixup. -/
theorem emitBranch (branch : Branch) (label : ℤ) : WellFormed (e.emitBranch branch label).2 := by
  unfold Emit.emitBranch Emit.emitWord
  split
  · exact ⟨h.codeAligned, h.labelAligned, h.fixups, h.apart⟩
  · refine h.addFixup ?_ fun _ => ⟨branch, rfl, rfl⟩
    rw [leBytes_length]
    cases branch <;> rfl

/-- It stays so when the address of a label is emitted, with its fixup. -/
theorem emitLabelAddress (rd label : ℤ) : WellFormed (e.emitLabelAddress rd label).2 := by
  unfold Emit.emitLabelAddress
  split
  · exact ⟨h.codeAligned, h.labelAligned, h.fixups, h.apart⟩
  · by_cases herror : e.error
    · simp only [Emit.emitWord, herror, if_true, Emit.fail, Emit.andThen, Bool.false_eq_true, if_false]
      exact ⟨h.codeAligned, h.labelAligned, h.fixups, h.apart⟩
    · simp only [Emit.emitWord, herror, Emit.andThen, Emit.addFixup, Bool.false_eq_true, if_false, if_true,
        append_assoc]
      apply h.addFixup
      · simp only [length_append, leBytes_length]
        rfl
      · exact fun hkind => absurd rfl hkind

theorem step (op : Op) : WellFormed (e.step op) := by
  cases op with
  | fail => exact ⟨h.codeAligned, h.labelAligned, h.fixups, h.apart⟩
  | word w => exact h.emitWord w
  | bytes data => exact h.emitBytes data
  | newLabel => exact h.newLabel
  | bindLabel label => exact h.bindLabel label
  | branch branch label => exact h.emitBranch branch label
  | labelAddress rd label => exact h.emitLabelAddress rd label
  | setVaddr address => exact ⟨h.codeAligned, h.labelAligned, h.fixups, h.apart⟩

end

/-- The emitter is well formed after every sequence of operations. -/
theorem run (ops : List Op) : WellFormed (Emit.run ops) := by
  have hfold (e : Emit) (h : WellFormed e) : WellFormed (ops.foldl Emit.step e) := by
    induction ops generalizing e with
    | nil => exact h
    | cons op ops ih => exact ih _ (h.step op)
  exact hfold _ init

end WellFormed

/-! ## Finalizing -/

/-- Patching a branch to itself gives the branch to the displacement. -/
theorem patchBranch_word (branch : Branch) {disp : ℤ} :
    patchBranch branch.kind (branch.word 0) (disp / 4) = branch.word disp := by
  have himm {base rest : BitVec 32} (hbase : base &&& ~~~((0x7FFFF : BitVec 32) <<< 5) = base)
      (hrest : rest &&& ~~~((0x7FFFF : BitVec 32) <<< 5) = rest) (x : ℤ) :
      ((base ||| field (0 / 4) 0x7FFFF 5 ||| rest) &&& ~~~((0x7FFFF : BitVec 32) <<< 5)) ||| field x 0x7FFFF 5 =
        base ||| field x 0x7FFFF 5 ||| rest := by
    have hzero : field (0 / 4) 0x7FFFF 5 = 0#32 := rfl
    rw [hzero, BitVec.or_zero, BitVec.and_or_distrib_right, hbase, hrest, BitVec.or_assoc, BitVec.or_assoc,
      BitVec.or_comm rest]
  have hlow {x : ℤ} {mask : BitVec 32} (hmask : mask &&& ~~~((0x7FFFF : BitVec 32) <<< 5) = mask) :
      field x mask 0 &&& ~~~((0x7FFFF : BitVec 32) <<< 5) = field x mask 0 := by
    rw [field, BitVec.shiftLeft_zero, BitVec.and_assoc, hmask]
  cases branch with
  | b => rfl
  | bl => rfl
  | bcond cond => exact himm (by decide) (hlow (by decide)) _
  | cbz is64 rt => exact himm (by cases is64 <;> decide) (hlow (by decide)) _
  | cbnz is64 rt => exact himm (by cases is64 <;> decide) (hlow (by decide)) _

/-- Patching an address stays in its sixteen bytes. -/
theorem patchAddress_frame {site i n : ℕ} {address : BitVec 64} {code : List (BitVec 8)} (h : site + 16 ≤ code.length)
    (hdisjoint : i + n ≤ site ∨ site + 16 ≤ i) (parts : List ℕ) (hparts : ∀ part ∈ parts, part < 4) :
    (parts.foldl (patchAddress site address) code).length = code.length ∧
      readAt (parts.foldl (patchAddress site address) code) i n = readAt code i n := by
  induction parts generalizing code with
  | nil => exact ⟨rfl, rfl⟩
  | cons part parts ih =>
    have hpart : part < 4 := hparts part mem_cons_self
    have hlength : (patchAddress site address code part).length = code.length := store32_length (by omega)
    obtain ⟨hrest, hread⟩ := ih (hlength ▸ h) fun p hp => hparts p (.tail _ hp)
    refine ⟨hrest.trans hlength, hread.trans ?_⟩
    exact readAt_store32_of_disjoint (by omega) (by omega)

section

variable {e e' : Emit} {f : Fixup}

/-- What a fixup that succeeds does: it stays in its bytes, and a branch is given its offset. -/
theorem finalizeFixup_spec (h : e.finalizeFixup f = (true, e')) (hwithin : f.site + f.kind.bytes ≤ e.code.length) :
    e'.labels = e.labels ∧ e'.code.length = e.code.length ∧
      (∀ i n, i + n ≤ f.site ∨ f.site + f.kind.bytes ≤ i → readAt e'.code i n = readAt e.code i n) ∧
      (f.kind ≠ .abs64Mov → ∃ off, e.target f.label = some off ∧
        (-reach f.kind ≤ ((off : ℤ) - f.site) / 4 ∧ ((off : ℤ) - f.site) / 4 < reach f.kind) ∧
        load32 e'.code f.site = patchBranch f.kind (load32 e.code f.site) (((off : ℤ) - f.site) / 4)) := by
  unfold finalizeFixup at h
  cases htarget : e.target f.label with
  | none =>
    rw [htarget] at h
    exact absurd (congrArg Prod.fst h) Bool.false_ne_true
  | some off =>
    rw [htarget] at h
    -- an absolute address is patched into four words, a branch into one
    by_cases hkind : f.kind = .abs64Mov
    · simp only [hkind, Prod.mk.injEq, true_and] at h
      subst h
      rw [hkind] at hwithin ⊢
      have hparts : ∀ part ∈ range 4, part < 4 := fun part hpart => mem_range.mp hpart
      refine ⟨rfl, ?_, ?_, fun hne => absurd rfl hne⟩
      · exact (patchAddress_frame (i := 0) (n := 0) hwithin (.inl (by omega)) _ hparts).1
      · exact fun i n hdisjoint => (patchAddress_frame hwithin hdisjoint _ hparts).2
    · have hbytes : f.kind.bytes = 4 := by
        cases hf : f.kind with
        | abs64Mov => exact absurd hf hkind
        | b26 => rfl
        | imm19 => rfl
      let words := ((off : ℤ) - f.site) / 4
      let patched := store32 e.code f.site (patchBranch f.kind (load32 e.code f.site) words)
      have hstore : (if words < -reach f.kind ∨ reach f.kind ≤ words then e.fail
          else (true, { e with code := patched })) = (true, e') := by
        cases hf : f.kind with
        | abs64Mov => exact absurd hf hkind
        | b26 =>
          simp only [hf] at h
          simpa only [patched, words, hf] using h
        | imm19 =>
          simp only [hf] at h
          simpa only [patched, words, hf] using h
      split at hstore
      · exact absurd (congrArg Prod.fst hstore) Bool.false_ne_true
      · rename_i hreach
        simp only [Prod.mk.injEq, true_and] at hstore
        subst hstore
        rw [hbytes] at hwithin ⊢
        refine ⟨rfl, store32_length hwithin, ?_, fun _ => ⟨off, rfl, by omega, load32_store32_self (by omega)⟩⟩
        exact fun i n hdisjoint => readAt_store32_of_disjoint hwithin hdisjoint

/-- All the fixups succeed when the first one and the others do. -/
theorem finalizeFrom_cons {fs : List Fixup} (h : finalizeFrom (f :: fs) e = (true, e')) :
    ∃ e₁, e.finalizeFixup f = (true, e₁) ∧ finalizeFrom fs e₁ = (true, e') := by
  unfold finalizeFrom andThen at h
  split at h
  · rename_i hfirst
    exact ⟨_, Prod.ext hfirst rfl, h⟩
  · rename_i hfirst
    exact absurd (congrArg Prod.fst h) hfirst

/-- The labels stay, and so does what lies before all the fixups. -/
theorem finalizeFrom_frame {fs : List Fixup} (h : finalizeFrom fs e = (true, e'))
    (hwithin : ∀ f ∈ fs, f.site + f.kind.bytes ≤ e.code.length) {i n : ℕ} (hbefore : ∀ f ∈ fs, i + n ≤ f.site) :
    readAt e'.code i n = readAt e.code i n := by
  induction fs generalizing e with
  | nil =>
    cases h
    rfl
  | cons f fs ih =>
    obtain ⟨e₁, hfirst, hrest⟩ := finalizeFrom_cons h
    obtain ⟨_, hlength, hframe, _⟩ := finalizeFixup_spec hfirst (hwithin f (.head _))
    rw [ih hrest (fun g hg => hlength.symm ▸ hwithin g (.tail _ hg))
      fun g hg => hbefore g (.tail _ hg)]
    exact hframe i n (.inl (hbefore f (.head _)))

/-- Each branch is given the displacement to its label. -/
theorem finalizeFrom_branch {fs : List Fixup} (h : finalizeFrom fs e = (true, e'))
    (hwithin : ∀ f ∈ fs, f.site + f.kind.bytes ≤ e.code.length)
    (hapart : fs.Pairwise fun f g => f.site + f.kind.bytes ≤ g.site) (hf : f ∈ fs) (hkind : f.kind ≠ .abs64Mov) :
    ∃ off, e.target f.label = some off ∧
      (-reach f.kind ≤ ((off : ℤ) - f.site) / 4 ∧ ((off : ℤ) - f.site) / 4 < reach f.kind) ∧
      load32 e'.code f.site = patchBranch f.kind (load32 e.code f.site) (((off : ℤ) - f.site) / 4) := by
  induction fs generalizing e with
  | nil => exact absurd hf not_mem_nil
  | cons g fs ih =>
    obtain ⟨e₁, hfirst, hrest⟩ := finalizeFrom_cons h
    obtain ⟨hlabels, hlength, hframe, hbranch⟩ := finalizeFixup_spec hfirst (hwithin g (.head _))
    have hwithin' : ∀ f ∈ fs, f.site + f.kind.bytes ≤ e₁.code.length :=
      fun f hf => hlength.symm ▸ hwithin f (.tail _ hf)
    obtain ⟨hhead, htail⟩ := pairwise_cons.mp hapart
    rcases mem_cons.mp hf with rfl | hmem
    · obtain ⟨off, htarget, hreach, hload⟩ := hbranch hkind
      refine ⟨off, htarget, hreach, ?_⟩
      have hbytes : 4 ≤ f.kind.bytes := by cases f.kind <;> decide
      rw [← hload, load32, load32, finalizeFrom_frame hrest hwithin' fun k hk => le_trans (by omega) (hhead k hk)]
    · obtain ⟨off, htarget, hreach, hload⟩ := ih hrest hwithin' htail hmem
      refine ⟨off, ?_, hreach, ?_⟩
      · rw [← htarget, target, target, hlabels]
      · rw [hload, load32, load32, hframe f.site 4 (.inr (hhead f hmem))]

end

/-- The target of a label is a place of a word. -/
theorem WellFormed.target_aligned {e : Emit} (h : WellFormed e) {label : ℤ} {off : ℕ} (ht : e.target label = some off) :
    off % 4 = 0 := by
  unfold target at ht
  split at ht
  · exact absurd ht (by simp)
  · split at ht
    · rename_i l hl
      split at ht
      · rw [← Option.some.inj ht]
        exact h.labelAligned l (mem_of_getElem? hl)
      · exact absurd ht (by simp)
    · exact absurd ht (by simp)

/-- The decoder reads the displacement of a branch that reaches it. -/
theorem decode_branch_imm (branch : Branch) {disp : ℤ} (h4 : disp % 4 = 0)
    (hreach : -reach branch.kind ≤ disp / 4 ∧ disp / 4 < reach branch.kind) :
    (decode (branch.word disp)).imm = disp := by
  cases branch with
  | b => exact (b_reads ⟨h4, hreach⟩).2
  | bl => exact (bl_reads ⟨h4, hreach⟩).2
  | bcond cond => exact (bcond_reads cond ⟨h4, hreach⟩).2.2
  | cbz is64 rt => exact (cbz_reads is64 rt ⟨h4, hreach⟩).2.2.2
  | cbnz is64 rt => exact (cbnz_reads is64 rt ⟨h4, hreach⟩).2.2.2

/-- After any calls, a finalized branch is the branch to its label: it decodes to target minus site. -/
theorem finalize_branch (ops : List Op) {e' : Emit} (h : (run ops).finalize = (true, e')) {f : Fixup}
    (hf : f ∈ (run ops).fixups) (hkind : f.kind ≠ .abs64Mov) :
    ∃ (off : ℕ) (branch : Branch), (run ops).target f.label = some off ∧ branch.kind = f.kind ∧
      load32 (run ops).code f.site = branch.word 0 ∧ load32 e'.code f.site = branch.word (off - f.site) ∧
      (decode (load32 e'.code f.site)).imm = off - f.site := by
  have hwf := WellFormed.run ops
  obtain ⟨branch, hbranch, hbefore⟩ := (hwf.fixups f hf).branch hkind
  unfold finalize at h
  split at h
  · exact absurd (congrArg Prod.fst h) Bool.false_ne_true
  · obtain ⟨off, htarget, hreach, hload⟩ :=
      finalizeFrom_branch h (fun g hg => (hwf.fixups g hg).within) hwf.apart hf hkind
    have hoff := hwf.target_aligned htarget
    have hsite := (hwf.fixups f hf).aligned
    have hword : load32 e'.code f.site = branch.word (off - f.site) := by
      rw [hload, hbefore, ← hbranch, patchBranch_word]
    refine ⟨off, branch, htarget, hbranch, hbefore, hword, ?_⟩
    rw [hword]
    rw [← hbranch] at hreach
    exact decode_branch_imm branch (by omega) hreach

end Emit

/-- The decoder and the encoders: on words of operands in range, it inverts or refuses all but the six encoders it
takes for others; and the branches of finalized code decode to target minus site. -/
theorem decode_inverts_iff (i : Insn) (ops : List Emit.Op) :
    (i.InRange → ((decode i.encode).op = .unknown ∨ i.Reads (decode i.encode) ↔ ¬ i.IsMisread)) ∧
    ∀ e' : Emit, (Emit.run ops).finalize = (true, e') →
      ∀ f ∈ (Emit.run ops).fixups, f.kind ≠ .abs64Mov →
        ∃ (off : ℕ) (branch : Branch), (Emit.run ops).target f.label = some off ∧ branch.kind = f.kind ∧
          load32 (Emit.run ops).code f.site = branch.word 0 ∧ load32 e'.code f.site = branch.word (off - f.site) ∧
          (decode (load32 e'.code f.site)).imm = off - f.site :=
  ⟨Insn.decode_encode_sound_iff i, fun _ h _ hf hkind => Emit.finalize_branch ops h hf hkind⟩

/-- An addition is read back, and so is a branch over itself. -/
theorem decode_inverts_iff_forward :
    (Insn.addReg true 0 1 2).Reads (decode (Insn.addReg true 0 1 2).encode) ∧
      (decode (load32 (Emit.run [.newLabel, .branch .b 0, .bindLabel 0]).finalize.2.code 0)).imm = 4 := by
  have hrange : (Insn.addReg true 0 1 2).InRange :=
    ⟨⟨by decide, by decide⟩, ⟨by decide, by decide⟩, by decide, by decide⟩
  constructor
  · refine (((decode_inverts_iff _ []).1 hrange).mpr id).resolve_left ?_
    decide
  · obtain ⟨off, branch, htarget, _, _, _, himm⟩ :=
      (decode_inverts_iff .nop [.newLabel, .branch .b 0, .bindLabel 0]).2 _ rfl ⟨0, 0, .b26⟩ (by decide) (by decide)
    have hoff : 4 = off := Option.some.inj htarget
    subst hoff
    exact himm

/-- A store of one byte at offset 1 is read as a store of a word at offset 4. -/
theorem decode_misreads_strb :
    let i := Insn.strbImm 0 1 1
    i.InRange ∧ (decode i.encode).op = .strImm ∧ (decode i.encode).imm = 4 ∧
      ¬ ((decode i.encode).op = .unknown ∨ i.Reads (decode i.encode)) := by
  refine ⟨⟨⟨by decide, by decide⟩, ⟨by decide, by decide⟩, by decide, by decide, by decide⟩, by decide, by decide, ?_⟩
  rintro (h | h)
  · exact absurd h (by decide)
  · exact h

end Mettle.Arm64

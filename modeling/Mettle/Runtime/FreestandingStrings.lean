import Mettle.Runtime.FreestandingMemory

/-!
# The string routines are right

On a terminated string they find what a look at one byte after the other finds, and they read no byte behind the word of
eight bytes that holds the last byte they need.
-/

namespace Mettle.Runtime

open Mettle.Lib Mettle.Bytes Option

/-- All bytes from an address to the end of the aligned word of another one are mapped. -/
def MappedToWord (m : Memory) (a last : ℕ) : Prop := ∀ z, a ≤ z → z / 8 ≤ last / 8 → (m z).isSome = true

variable {m : Memory} {text part left right n k i fuel : ℕ}

/-- A whole word is mapped up to the one with the end. -/
theorem MappedToWord.word {a last o : ℕ} (h : MappedToWord m a last) (ha : a ≤ o) (hlast : o ≤ last) (halign : o % 8 = 0) :
    m.Mapped o 8 := fun j hj => h (o + j) (by omega) (by omega)

theorem MappedToWord.from {a b last : ℕ} (h : MappedToWord m a last) (hab : a ≤ b) : MappedToWord m b last :=
  fun z hz hlast => h z (hab.trans hz) hlast

/-! ## `strlen` -/

theorem strlen_null (fuel : ℕ) (m : Memory) : strlen fuel m 0 = some 0 := by
  rw [strlen, if_pos rfl]

/-- `strlen` finds the first zero byte. -/
theorem strlen_eq (htext : text ≠ 0) (h : Absent m 0#8 text n) (hend : m (text + n) = some 0#8)
    (hmapped : MappedToWord m text (text + n)) (hfuel : n < fuel) : strlen fuel m text = some n := by
  rw [strlen, if_neg htext]
  apply whileUnaligned_eq (fun o => text ≤ o ∧ o ≤ text + n) (fun _ => some n) ?_ ?_ ⟨le_rfl, by omega⟩
  · rintro o rest ⟨hlow, hhigh⟩ _ hrest
    obtain ⟨j, rfl⟩ := Nat.exists_eq_add_of_le hlow
    rcases Nat.lt_or_eq_of_le (Nat.le_of_add_le_add_left hhigh) with hlt | rfl
    · obtain ⟨b, hb, hne⟩ := h j hlt
      simp only [bind_eq_bind, hb, bind_some]
      rw [if_neg hne, hrest (by omega)]
    · simp only [bind_eq_bind, hend, bind_some]
      rw [if_pos trivial, Nat.add_sub_cancel_left]
  · rintro o ⟨hlow, hhigh⟩ halign
    apply forever_eq (fun o => text ≤ o ∧ o ≤ text + n ∧ o % 8 = 0) (fun _ => some n) (text + n)
      (by decide) ?_ (fun o ho => ho.2.1) (by omega) ⟨hlow, hhigh, halign (by decide)⟩
    rintro o rest ⟨hlow, hhigh, halign⟩ hrest
    obtain ⟨j, rfl⟩ := Nat.exists_eq_add_of_le hlow
    by_cases hlast : n < j + 8
    · have hzero : m (text + j + (n - j)) = some 0#8 := by
        rw [Nat.add_assoc, Nat.add_sub_of_le (by omega), hend]
      obtain ⟨word, hword, hmask, hctz⟩ :=
        word_first (hmapped.word hlow hhigh halign) (by omega) hzero (h.sub (by omega))
      rw [xor_mtPattern_zero] at hmask hctz
      simp only [bind_eq_bind, hword, bind_some]
      rw [if_pos hmask, hctz]
      congr 1
      omega
    · obtain ⟨word, hword, hmask⟩ := word_absent (h.sub (j := 8) (o := j) (by omega))
      rw [xor_mtPattern_zero] at hmask
      simp only [bind_eq_bind, hword, bind_some]
      rw [if_neg (not_not.mpr hmask), hrest (by omega)]

/-! ## `strcmp` -/

section

variable {x y : BitVec 8}

/-- The byte loop stops at the first difference or at the end. -/
theorem strcmpBytes_eq {o : ℕ} (hsame : Same m left right i) (hnone : Absent m 0#8 left i) (hx : m (left + i) = some x)
    (hy : m (right + i) = some y) (hstop : x ≠ y ∨ x = 0#8) (ho : o ≤ i) (hfuel : i < o + fuel) :
    strcmpBytes fuel m left right o = some ((x.toNat : ℤ) - (y.toNat : ℤ)) := by
  apply forever_eq (fun o => o ≤ i) (fun _ => some ((x.toNat : ℤ) - (y.toNat : ℤ))) i
    Nat.one_pos ?_ (fun _ ho => ho) hfuel ho
  intro o rest ho hrest
  rcases Nat.lt_or_eq_of_le ho with hlt | rfl
  · obtain ⟨c, hl, hr⟩ := hsame o hlt
    obtain ⟨b, hb, hne⟩ := hnone o hlt
    simp only [bind_eq_bind, hl, hr, bind_some]
    rw [if_pos ⟨some.inj (hb.symm.trans hl) ▸ hne, trivial⟩, hrest hlt]
  · simp only [bind_eq_bind, hx, hy, bind_some]
    rw [if_neg]
    rintro ⟨hne, heq⟩
    exact hstop.elim (fun h => h heq) hne

/-- The first bytes that differ decide, or the end of both strings. -/
theorem strcmp_eq (hsame : Same m left right i) (hnone : Absent m 0#8 left i) (hx : m (left + i) = some x)
    (hy : m (right + i) = some y) (hstop : x ≠ y ∨ x = 0#8) (hleft : MappedToWord m left (left + i))
    (hright : MappedToWord m right (right + i)) (hfuel : i < fuel) :
    strcmp fuel m left right = some ((x.toNat : ℤ) - (y.toNat : ℤ)) := by
  have hbytes {o : ℕ} (ho : o ≤ i) : strcmpBytes fuel m left right o = some ((x.toNat : ℤ) - (y.toNat : ℤ)) :=
    strcmpBytes_eq hsame hnone hx hy hstop ho (by omega)
  rw [strcmp]
  -- strings of one alignment are compared by bytes up to a word boundary, then by words; others by bytes
  by_cases heven : left % 8 = right % 8
  · rw [if_pos heven]
    apply whileUnaligned_eq (fun o => left ≤ o ∧ o ≤ left + i) (fun _ => some ((x.toNat : ℤ) - (y.toNat : ℤ)))
      ?_ ?_ ⟨le_rfl, by omega⟩
    · rintro o rest ⟨hlow, hhigh⟩ _ hrest
      obtain ⟨j, rfl⟩ := Nat.exists_eq_add_of_le hlow
      rw [Nat.add_sub_cancel_left]
      rcases Nat.lt_or_eq_of_le (Nat.le_of_add_le_add_left hhigh) with hlt | rfl
      · obtain ⟨c, hl, hr⟩ := hsame j hlt
        obtain ⟨b, hb, hne⟩ := hnone j hlt
        have hc : c ≠ 0#8 := some.inj (hb.symm.trans hl) ▸ hne
        simp only [bind_eq_bind, hl, hr, bind_some]
        rw [if_neg (not_or.mpr ⟨not_not.mpr rfl, hc⟩), hrest (by omega)]
      · simp only [bind_eq_bind, hx, hy, bind_some]
        rw [if_pos hstop]
    · rintro o ⟨hlow, hhigh⟩ halign
      apply forever_eq (fun o => left ≤ o ∧ o ≤ left + i ∧ o % 8 = 0)
        (fun _ => some ((x.toNat : ℤ) - (y.toNat : ℤ))) (left + i) (by decide) ?_ (fun o ho => ho.2.1)
        (by omega) ⟨hlow, hhigh, halign (by decide)⟩
      rintro o rest ⟨hlow, hhigh, halign⟩ hrest
      obtain ⟨j, rfl⟩ := Nat.exists_eq_add_of_le hlow
      rw [Nat.add_sub_cancel_left]
      have hl := hleft.word hlow hhigh halign
      have hr : m.Mapped (right + j) 8 := hright.word (by omega) (by omega) (by omega)
      by_cases hlast : i < j + 8
      · -- a difference or the terminator is in these words, and both leave the loop
        have hx' : m (left + j + (i - j)) = some x := by rw [Nat.add_assoc, Nat.add_sub_of_le (by omega), hx]
        have hy' : m (right + j + (i - j)) = some y := by rw [Nat.add_assoc, Nat.add_sub_of_le (by omega), hy]
        by_cases hxy : x = y
        · subst hxy
          obtain rfl := hstop.resolve_left (not_not.mpr rfl)
          obtain ⟨v, hv, hmask, -⟩ := word_first hl (by omega) hx' (hnone.sub (by omega))
          obtain ⟨bytes, hload⟩ := hr.load
          rw [xor_mtPattern_zero] at hmask
          simp only [bind_eq_bind, hv, loadWord_eq hload, bind_some]
          rw [if_pos (Or.inr hmask), hbytes (by omega)]
        · obtain ⟨v, w, hv, hw, hvw, -⟩ := words_differ hl hr (by omega) (hsame.sub (by omega)) hx' hy' hxy
          simp only [bind_eq_bind, hv, hw, bind_some]
          rw [if_pos (Or.inl hvw), hbytes (by omega)]
      · obtain ⟨v, hv, hw⟩ := words_same (hsame.sub (j := 8) (o := j) (by omega))
        obtain ⟨v', hv', hmask⟩ := word_absent (hnone.sub (j := 8) (o := j) (by omega))
        obtain rfl := some.inj (hv.symm.trans hv')
        rw [xor_mtPattern_zero] at hmask
        simp only [bind_eq_bind, hv, hw, bind_some]
        rw [if_neg (not_or.mpr ⟨not_not.mpr rfl, not_not.mpr hmask⟩), hrest (by omega)]
  · rw [if_neg heven, hbytes (Nat.zero_le i)]

/-! ## `strncmp` -/

/-- `strncmp` gives zero when nothing differs up to the count. -/
theorem strncmp_same {count : ℕ} (hsame : Same m left right count) (hnone : Absent m 0#8 left count) :
    strncmp m left right count = some 0 := by
  apply whileBlocks_eq (fun o n => o + n = count) (fun _ _ => some 0) Nat.one_pos ?_ ?_ (Nat.zero_add _)
  · intro o n rest hcount hn hrest
    obtain ⟨c, hl, hr⟩ := hsame o (by omega)
    obtain ⟨b, hb, hne⟩ := hnone o (by omega)
    have hc : c ≠ 0#8 := some.inj (hb.symm.trans hl) ▸ hne
    simp only [bind_eq_bind, hl, hr, bind_some]
    rw [if_neg (not_or.mpr ⟨not_not.mpr rfl, hc⟩), hrest (by omega)]
  · intro _ _ _ _
    rfl

/-- It gives the difference of the first bytes that differ, or zero at the end. -/
theorem strncmp_stop {count : ℕ} (hi : i < count) (hsame : Same m left right i) (hnone : Absent m 0#8 left i)
    (hx : m (left + i) = some x) (hy : m (right + i) = some y) (hstop : x ≠ y ∨ x = 0#8) :
    strncmp m left right count = some ((x.toNat : ℤ) - (y.toNat : ℤ)) := by
  apply whileBlocks_eq (fun o n => o + n = count ∧ o ≤ i) (fun _ _ => some ((x.toNat : ℤ) - (y.toNat : ℤ)))
    Nat.one_pos ?_ ?_ ⟨Nat.zero_add _, Nat.zero_le _⟩
  · rintro o n rest ⟨hcount, ho⟩ hn hrest
    rcases Nat.lt_or_eq_of_le ho with hlt | rfl
    · obtain ⟨c, hl, hr⟩ := hsame o hlt
      obtain ⟨b, hb, hne⟩ := hnone o hlt
      have hc : c ≠ 0#8 := some.inj (hb.symm.trans hl) ▸ hne
      simp only [bind_eq_bind, hl, hr, bind_some]
      rw [if_neg (not_or.mpr ⟨not_not.mpr rfl, hc⟩), hrest (by omega)]
    · simp only [bind_eq_bind, hx, hy, bind_some]
      rw [if_pos hstop]
  · rintro o n ⟨hcount, ho⟩ hn
    omega

end

/-! ## `strchr` -/

/-- The first byte that is wanted or ends the string decides. -/
theorem strchr_eq (fuel : ℕ) (character : BitVec 32) {b : BitVec 8} (hwanted : Absent m (character.setWidth 8) text i)
    (hnone : Absent m 0#8 text i) (hb : m (text + i) = some b) (hstop : b = character.setWidth 8 ∨ b = 0#8)
    (hmapped : MappedToWord m text (text + i)) (hfuel : i < fuel) :
    strchr fuel m text character = some (if b = character.setWidth 8 then some (text + i) else none) := by
  rw [strchr]
  generalize character.setWidth 8 = wanted at hwanted hstop ⊢
  generalize hresult : some (if b = wanted then some (text + i) else none) = result
  apply whileUnaligned_eq (fun o => text ≤ o ∧ o ≤ text + i) (fun _ => result) ?_ ?_ ⟨le_rfl, by omega⟩
  · rintro o rest ⟨hlow, hhigh⟩ _ hrest
    obtain ⟨j, rfl⟩ := Nat.exists_eq_add_of_le hlow
    rcases Nat.lt_or_eq_of_le (Nat.le_of_add_le_add_left hhigh) with hlt | rfl
    · obtain ⟨c, hc, hne⟩ := hwanted j hlt
      obtain ⟨c', hc', hne'⟩ := hnone j hlt
      obtain rfl := some.inj (hc.symm.trans hc')
      simp only [bind_eq_bind, hc, bind_some]
      rw [if_neg hne, if_neg hne', hrest (by omega)]
    · simp only [bind_eq_bind, hb, bind_some, ← hresult]
      by_cases heq : b = wanted
      · rw [if_pos heq, if_pos heq]
      · rw [if_neg heq, if_neg heq, if_pos (hstop.resolve_left heq)]
  · rintro o ⟨hlow, hhigh⟩ halign
    apply forever_eq (fun o => text ≤ o ∧ o ≤ text + i ∧ o % 8 = 0) (fun _ => result) (text + i)
      (by decide) ?_ (fun o ho => ho.2.1) (by omega) ⟨hlow, hhigh, halign (by decide)⟩
    rintro o rest ⟨hlow, hhigh, halign⟩ hrest
    have hword := hmapped.word hlow hhigh halign
    obtain ⟨j, rfl⟩ := Nat.exists_eq_add_of_le hlow
    by_cases hlast : i < j + 8
    · have hb' : m (text + j + (i - j)) = some b := by
        rw [Nat.add_assoc, Nat.add_sub_of_le (by omega), hb]
      have hwanted' : Absent m wanted (text + j) (i - j) := hwanted.sub (by omega)
      have hnone' : Absent m 0#8 (text + j) (i - j) := hnone.sub (by omega)
      obtain ⟨w, hw⟩ : ∃ w, m.loadWord (text + j) = some w := by
        obtain ⟨bytes, hbytes⟩ := hword.load
        exact ⟨_, loadWord_eq hbytes⟩
      have hmask {c : BitVec 8} {l : ℕ} (hl : l < 8) (hc : m (text + j + l) = some c) (habsent : Absent m c (text + j) l) :
          mtWordZeroMask (w ^^^ mtPattern c) ≠ 0#64 ∧ ctzByte (mtWordZeroMask (w ^^^ mtPattern c)) = l := by
        obtain ⟨w', hw', hmask⟩ := word_first hword hl hc habsent
        obtain rfl := some.inj (hw.symm.trans hw')
        exact hmask
      have hclear {c : BitVec 8} (habsent : Absent m c (text + j) 8) : mtWordZeroMask (w ^^^ mtPattern c) = 0#64 := by
        obtain ⟨w', hw', hmask⟩ := word_absent habsent
        obtain rfl := some.inj (hw.symm.trans hw')
        exact hmask
      -- where another byte is first found, it is found behind this one
      have hbehind {c : BitVec 8} {l : ℕ} (hc : m (text + j + l) = some c) (hbefore : Absent m c (text + j) (i - j))
          (hne : b ≠ c) : i - j < l := by
        rcases Nat.lt_trichotomy l (i - j) with hlt | rfl | hgt
        · obtain ⟨c', hc', hne'⟩ := hbefore l hlt
          exact absurd (some.inj (hc'.symm.trans hc)) hne'
        · exact absurd (some.inj (hb'.symm.trans hc)) hne
        · exact hgt
      simp only [bind_eq_bind, hw, bind_some, ← hresult]
      have hzero : mtWordZeroMask w = mtWordZeroMask (w ^^^ mtPattern 0#8) := by rw [xor_mtPattern_zero]
      rw [hzero]
      by_cases heq : b = wanted
      · subst heq
        obtain ⟨hhit, hctz⟩ := hmask (by omega) hb' hwanted'
        have hor : mtWordZeroMask (w ^^^ mtPattern b) ||| mtWordZeroMask (w ^^^ mtPattern 0#8) ≠ 0#64 := by
          intro hor
          exact hhit (BitVec.or_eq_zero_iff.mp hor).1
        have hfirst : mtWordZeroMask (w ^^^ mtPattern 0#8) = 0#64 ∨
            (mtWordZeroMask (w ^^^ mtPattern b)).ctz.toNat ≤ (mtWordZeroMask (w ^^^ mtPattern 0#8)).ctz.toNat := by
          by_cases hb0 : b = 0#8
          · right
            rw [hb0]
          · rcases first_or_absent hword 0#8 with habsent | ⟨l, hl, hc, habsent⟩
            · exact Or.inl (hclear habsent)
            · obtain ⟨-, hctz'⟩ := hmask hl hc habsent
              have hlt := hbehind hc hnone' hb0
              rw [ctzByte] at hctz hctz'
              right
              omega
        rw [if_pos hor, if_pos ⟨hhit, hfirst⟩, if_pos rfl, hctz, Nat.add_assoc, Nat.add_sub_of_le (by omega)]
      · obtain rfl := hstop.resolve_left heq
        obtain ⟨hend, hctz⟩ := hmask (by omega) hb' hnone'
        have hor : mtWordZeroMask (w ^^^ mtPattern wanted) ||| mtWordZeroMask (w ^^^ mtPattern 0#8) ≠ 0#64 := by
          intro hor
          exact hend (BitVec.or_eq_zero_iff.mp hor).2
        rw [if_pos hor, if_neg heq, if_neg]
        rintro ⟨hhit, hfirst⟩
        rcases first_or_absent hword wanted with habsent | ⟨l, hl, hc, habsent⟩
        · exact hhit (hclear habsent)
        · obtain ⟨-, hctz'⟩ := hmask hl hc habsent
          have hlt := hbehind hc hwanted' heq
          have hle := hfirst.resolve_left hend
          rw [ctzByte] at hctz hctz'
          omega
    · obtain ⟨w, hw, hhit⟩ := word_absent (hwanted.sub (j := 8) (o := j) (by omega))
      obtain ⟨w', hw', hend⟩ := word_absent (hnone.sub (j := 8) (o := j) (by omega))
      obtain rfl := some.inj (hw.symm.trans hw')
      rw [xor_mtPattern_zero] at hend
      simp only [bind_eq_bind, hw, bind_some]
      rw [if_neg (not_not.mpr (by rw [hhit, hend, BitVec.or_zero])), hrest (by omega)]

/-! ## `strstr` -/

/-- The part stands at an offset of the text. -/
def Occurs (m : Memory) (text part k j : ℕ) : Prop := Same m (text + j) part k

/-- The offset where the part stands first in a text of `n` bytes, if it stands anywhere. -/
def FirstOccurrence (m : Memory) (text n part k : ℕ) : Option ℕ → Prop
  | some i => i + k ≤ n ∧ Occurs m text part k i ∧ ∀ j < i, ¬ Occurs m text part k j
  | none => ∀ j, j + k ≤ n → ¬ Occurs m text part k j

variable {count rest : ℕ} {found : Option ℕ}

/-- The part does not stand across the terminator. -/
theorem Same.le (hsame : Same m text part count) (hend : m (text + n) = some 0#8) (hpart : Absent m 0#8 part count) :
    count ≤ n := by
  by_contra hlt
  obtain ⟨c, hc, hc'⟩ := hsame n (by omega)
  obtain ⟨b, hb, hne⟩ := hpart n (by omega)
  rw [hend] at hc
  rw [hc'] at hb
  exact hne ((some.inj hb).symm.trans (some.inj hc).symm)

/-- Two strings agree for some count of bytes, or stop at a difference before that. -/
theorem same_or_stop (htext : Absent m 0#8 text n) (hend : m (text + n) = some 0#8) (hpart : Absent m 0#8 part count) :
    Same m text part count ∨ ∃ i < count, i ≤ n ∧ Same m text part i ∧
      ∃ x y, m (text + i) = some x ∧ m (part + i) = some y ∧ x ≠ y := by
  induction count with
  | zero => exact Or.inl fun i hi => absurd hi (Nat.not_lt_zero i)
  | succ count ih =>
    rcases ih fun i hi => hpart i (by omega) with hsame | ⟨i, hi, hstop⟩
    · have hle : count ≤ n := hsame.le hend fun i hi => hpart i (by omega)
      obtain ⟨x, hx⟩ : ∃ x, m (text + count) = some x := by
        rcases Nat.lt_or_eq_of_le hle with hlt | rfl
        · obtain ⟨x, hx, -⟩ := htext count hlt
          exact ⟨x, hx⟩
        · exact ⟨_, hend⟩
      obtain ⟨y, hy, -⟩ := hpart count (Nat.lt_succ_self count)
      by_cases hxy : x = y
      · left
        intro i hi
        rcases Nat.lt_succ_iff_lt_or_eq.mp hi with hlt | rfl
        · exact hsame i hlt
        · exact ⟨x, hx, hxy ▸ hy⟩
      · exact Or.inr ⟨count, Nat.lt_succ_self count, hle, hsame, x, y, hx, hy, hxy⟩
    · exact Or.inr ⟨i, by omega, hstop⟩

/-- The comparison of `strstr` finds whether the part stands at an offset where its first byte stands. -/
theorem strncmp_eq_zero_iff (htext : Absent m 0#8 text n) (hend : m (text + n) = some 0#8)
    (hpart : Absent m 0#8 part rest) :
    ∃ order, strncmp m text part rest = some order ∧ (order = 0 ↔ Same m text part rest) := by
  rcases same_or_stop htext hend hpart with hsame | ⟨i, hi, hin, hsame, x, y, hx, hy, hne⟩
  · refine ⟨0, strncmp_same hsame ?_, iff_of_true rfl hsame⟩
    intro i hi
    obtain ⟨c, hc, hc'⟩ := hsame i hi
    obtain ⟨b, hb, hne⟩ := hpart i hi
    exact ⟨c, hc, some.inj (hb.symm.trans hc') ▸ hne⟩
  · refine ⟨_, strncmp_stop hi hsame (fun j hj => htext j (by omega)) hx hy (Or.inl hne), iff_of_false ?_ ?_⟩
    · have hdiff : x.toNat ≠ y.toNat := fun h => hne (BitVec.eq_of_toNat_eq h)
      omega
    · intro hall
      obtain ⟨c, hc, hc'⟩ := hall i hi
      exact hne (some.inj (hx.symm.trans hc) ▸ (some.inj (hy.symm.trans hc')).symm)

/-- The search stops at the first occurrence. -/
theorem strstrLoop_eq {first : BitVec 8} {o : ℕ} (hfirst : m part = some first) (hne : first ≠ 0#8)
    (hrest : Absent m 0#8 (part + 1) rest) (htext : Absent m 0#8 text n) (hend : m (text + n) = some 0#8)
    (hmapped : MappedToWord m text (text + n)) (hfound : FirstOccurrence m text n part (rest + 1) found) (ho : o ≤ n)
    (hbefore : ∀ j < o, ¬ Occurs m text part (rest + 1) j) (hfuel : n < o + fuel) :
    strstrLoop m part first rest fuel (text + o) = some (found.map (text + ·)) := by
  induction fuel generalizing o with
  | zero => omega
  | succ fuel ih =>
    have hwidth : (first.signExtend 32).setWidth 8 = first := by
      apply BitVec.eq_of_getLsbD_eq
      intro i hi
      rw [BitVec.getLsbD_setWidth, BitVec.getLsbD_signExtend, decide_eq_true hi, decide_eq_true (show i < 32 by omega),
        if_pos hi, Bool.true_and, Bool.true_and]
    -- what `strchr` stops at
    obtain ⟨i, b, hoi, hin, hwanted, hb, hstop⟩ : ∃ i b, o ≤ i ∧ i ≤ n ∧ Absent m first (text + o) (i - o) ∧
        m (text + i) = some b ∧ (b = first ∨ i = n ∧ b = 0#8) := by
      have hall : m.Mapped (text + o) (n - o) := (htext.sub (by omega)).mapped
      rcases first_or_absent hall first with habsent | ⟨k, hk, hc, habsent⟩
      · exact ⟨n, 0#8, ho, le_rfl, habsent, hend, Or.inr ⟨rfl, rfl⟩⟩
      · rw [Nat.add_assoc] at hc
        refine ⟨o + k, first, by omega, by omega, ?_, hc, Or.inl rfl⟩
        rwa [Nat.add_sub_cancel_left]
    have hsum : text + o + (i - o) = text + i := by rw [Nat.add_assoc, Nat.add_sub_of_le hoi]
    have hchr := strchr_eq (fuel + 1) (first.signExtend 32) (i := i - o) (b := b)
      (by rw [hwidth]; exact hwanted) (htext.sub (by omega)) (by rw [hsum, hb])
      (by rw [hwidth]; exact hstop.imp_right And.right)
      (by rw [hsum]; exact fun z hz hlast => hmapped z (by omega) (by omega)) (by omega)
    rw [hwidth, hsum] at hchr
    -- the part begins with its first byte, so it does not stand at the offsets that are passed over
    have hpassed : ∀ j < i, ¬ Occurs m text part (rest + 1) j := by
      intro j hj hoccurs
      rcases Nat.lt_or_ge j o with hlt | hge
      · exact hbefore j hlt hoccurs
      · obtain ⟨c, hc, hc'⟩ := hoccurs 0 (Nat.succ_pos rest)
        obtain ⟨c', hc'', hne'⟩ := hwanted (j - o) (by omega)
        rw [Nat.add_assoc, Nat.add_sub_of_le hge] at hc''
        apply hne'
        rw [← some.inj (hc.symm.trans hc''), ← some.inj (hc'.symm.trans hfirst)]
    rw [strstrLoop, bind_eq_bind, hchr, bind_some]
    by_cases heq : b = first
    · subst heq
      rw [if_pos rfl]
      have hlt : i < n := by
        apply Nat.lt_of_le_of_ne hin
        rintro rfl
        exact hne (some.inj (hb.symm.trans hend))
      have hafter : Absent m 0#8 (text + i + 1) (n - (i + 1)) := by
        rw [Nat.add_assoc]
        exact htext.sub (by omega)
      have hend' : m (text + i + 1 + (n - (i + 1))) = some 0#8 := by
        rw [show text + i + 1 + (n - (i + 1)) = text + n by omega, hend]
      obtain ⟨order, horder, hzero⟩ := strncmp_eq_zero_iff hafter hend' hrest
      have hoccurs : Occurs m text part (rest + 1) i ↔ Same m (text + i + 1) (part + 1) rest := by
        constructor
        · intro h j hj
          obtain ⟨c, hc, hc'⟩ := h (j + 1) (by omega)
          rw [← Nat.add_assoc, Nat.add_right_comm] at hc hc'
          exact ⟨c, hc, hc'⟩
        · intro h j hj
          cases j with
          | zero => exact ⟨b, hb, hfirst⟩
          | succ j =>
            obtain ⟨c, hc, hc'⟩ := h j (by omega)
            rw [Nat.add_right_comm, Nat.add_assoc] at hc hc'
            exact ⟨c, hc, hc'⟩
      show ((strncmp m (text + i + 1) (part + 1) rest).bind fun order => _) = _
      rw [horder, bind_some]
      by_cases hmatch : order = 0
      · rw [if_pos hmatch]
        have hhere := hoccurs.mpr (hzero.mp hmatch)
        cases found with
        | none =>
          have hle := (hzero.mp hmatch).le hend' hrest
          exact absurd hhere (hfound i (by omega))
        | some k =>
          -- the first place is not passed over, and not behind this one
          rcases Nat.lt_trichotomy k i with hki | rfl | hik
          · exact absurd hfound.2.1 (hpassed k hki)
          · rfl
          · exact absurd hhere (hfound.2.2 i hik)
      · rw [if_neg hmatch, Nat.add_assoc]
        apply ih hlt _ (by omega)
        intro j hj
        rcases Nat.lt_succ_iff_lt_or_eq.mp hj with hji | rfl
        · exact hpassed j hji
        · exact fun h => hmatch (hzero.mpr (hoccurs.mp h))
    · obtain ⟨rfl, -⟩ := hstop.resolve_left heq
      rw [if_neg heq]
      cases found with
      | none => rfl
      | some k =>
        have hlt : k < i := by
          have hle := hfound.1
          omega
        exact absurd hfound.2.1 (hpassed k hlt)

/-- The first place where the part stands, in strings that are mapped up to the word of their terminator. -/
theorem strstr_eq (htext : Absent m 0#8 text n) (hend : m (text + n) = some 0#8)
    (hmapped : MappedToWord m text (text + n)) (hpart : Absent m 0#8 part k) (hpartEnd : m (part + k) = some 0#8)
    (hpartMapped : MappedToWord m part (part + k)) (hfound : FirstOccurrence m text n part k found) (hfuel : n < fuel)
    (hpartFuel : k ≤ fuel) : strstr fuel m text part = some (found.map (text + ·)) := by
  rw [strstr]
  cases k with
  | zero =>
    rw [Nat.add_zero] at hpartEnd
    rw [hpartEnd, bind_eq_bind, bind_some, if_pos rfl]
    -- the empty part stands at the start
    have hempty (j : ℕ) : Occurs m text part 0 j := fun i hi => absurd hi (Nat.not_lt_zero i)
    cases found with
    | none => exact absurd (hempty 0) (hfound 0 (Nat.zero_le n))
    | some i =>
      obtain rfl : i = 0 := by
        by_contra hne
        exact hfound.2.2 0 (Nat.pos_of_ne_zero hne) (hempty 0)
      rfl
  | succ k =>
    obtain ⟨first, hfirst, hne⟩ := hpart 0 (Nat.succ_pos k)
    have hrest : Absent m 0#8 (part + 1) k := hpart.sub (o := 1) (by omega)
    have hlen : strlen fuel m (part + 1) = some k := by
      apply strlen_eq (Nat.succ_ne_zero part) hrest _ _ (by omega)
      · rw [Nat.succ_add, ← Nat.add_succ, hpartEnd]
      · rw [Nat.succ_add, ← Nat.add_succ]
        exact hpartMapped.from (Nat.le_succ part)
    rw [Nat.add_zero] at hfirst
    rw [hfirst, bind_eq_bind, bind_some, if_neg hne, hlen]
    exact strstrLoop_eq (o := 0) hfirst hne hrest htext hend hmapped hfound (Nat.zero_le n)
      (fun j hj => absurd hj (Nat.not_lt_zero j)) (by omega)

end Mettle.Runtime

import Mettle.Semantic.Ranges

/-!
# Where the interval arithmetic is right

A sum keeps each bound on its own, so that the bound on one side survives an overflow on the other; the wrapped
values are then on the wrong side of it. The other operators bound every value. For sums and differences and
for negation the exact condition is found from the exact set of sums, an interval of integers.
-/

open Option

namespace Mettle.Semantic

/-! ## Words and integers -/

/-- The integer is one of `long long`. -/
def I64 (n : ℤ) : Prop := -2 ^ 63 ≤ n ∧ n < 2 ^ 63

theorem i64_toInt (v : BitVec 64) : I64 v.toInt := ⟨v.le_toInt, v.toInt_lt⟩

variable {n a b c d x y : ℤ} {v m l : BitVec 64} {P : ℤ → Prop} {haveL haveR : Bool}

theorem I64.exists (h : I64 n) : ∃ v : BitVec 64, v.toInt = n := by
  obtain ⟨hlow, hhigh⟩ := h
  refine ⟨BitVec.ofInt 64 n, ?_⟩
  rw [BitVec.toInt_ofInt]
  exact Int.bmod_eq_of_le (by omega) (by omega)

/-- What wrapping does to a sum of two words. -/
theorem bmod_cases (hlow : -2 ^ 64 ≤ n) (hhigh : n < 2 ^ 64) :
    I64 n ∧ n.bmod (2 ^ 64) = n ∨ 2 ^ 63 ≤ n ∧ n.bmod (2 ^ 64) = n - 2 ^ 64 ∨
      n < -2 ^ 63 ∧ n.bmod (2 ^ 64) = n + 2 ^ 64 := by
  rcases lt_or_ge n (-2 ^ 63) with hunder | hunder
  · right
    right
    refine ⟨hunder, ?_⟩
    rw [← Int.add_bmod_right n (2 ^ 64)]
    exact Int.bmod_eq_of_le (by omega) (by omega)
  · rcases lt_or_ge n (2 ^ 63) with hover | hover
    · left
      exact ⟨⟨hunder, hover⟩, Int.bmod_eq_of_le (by omega) (by omega)⟩
    · right
      left
      refine ⟨hover, ?_⟩
      rw [← Int.sub_bmod_right n (2 ^ 64)]
      exact Int.bmod_eq_of_le (by omega) (by omega)

/-! ## Ranges -/

/-- The range has the value. -/
structure Range.Contains (r : Range) (v : BitVec 64) : Prop where
  min_le : ∀ m ∈ r.min, m.toInt ≤ v.toInt
  le_max : ∀ m ∈ r.max, v.toInt ≤ m.toInt

/-- The least value of a range. -/
def Range.low (r : Range) : ℤ := (r.min.map BitVec.toInt).getD (-2 ^ 63)

/-- The greatest value of a range. -/
def Range.high (r : Range) : ℤ := (r.max.map BitVec.toInt).getD (2 ^ 63 - 1)

theorem contains_unknown (v : BitVec 64) : rangeUnknown.Contains v :=
  ⟨fun _ h => (not_mem_none _ h).elim, fun _ h => (not_mem_none _ h).elim⟩

theorem contains_exact {w : BitVec 64} : (rangeExact v).Contains w ↔ w = v := by
  constructor
  · intro h
    exact BitVec.toInt_inj.mp (le_antisymm (h.le_max v rfl) (h.min_le v rfl))
  · rintro rfl
    exact ⟨fun m hm => by rw [some.inj hm], fun m hm => by rw [some.inj hm]⟩

variable {L R inner : Range}

/-- A range with equal bounds contains one value. -/
theorem Range.Contains.eq_of_exact (h : R.Contains v) (hmin : R.min = some m) (hmax : R.max = some m) : v = m :=
  BitVec.toInt_inj.mp (le_antisymm (h.le_max m hmax) (h.min_le m hmin))

/-- The lower end is in range, also where the range has none of its own. -/
theorem Range.low_i64 (r : Range) : I64 r.low := by
  unfold Range.low
  cases r.min with
  | none => exact ⟨le_rfl, by norm_num⟩
  | some m => exact i64_toInt m

theorem Range.high_i64 (r : Range) : I64 r.high := by
  unfold Range.high
  cases r.max with
  | none => exact ⟨by norm_num, by norm_num⟩
  | some m => exact i64_toInt m

/-- A range contains what lies between its ends. -/
theorem contains_iff : L.Contains v ↔ L.low ≤ v.toInt ∧ v.toInt ≤ L.high := by
  have hv := i64_toInt v
  obtain ⟨hlow, hhigh⟩ := hv
  constructor
  · rintro ⟨hmin, hmax⟩
    constructor
    · unfold Range.low
      cases h : L.min with
      | none => exact hlow
      | some m => exact hmin m h
    · unfold Range.high
      cases h : L.max with
      | none => exact Int.le_sub_one_of_lt hhigh
      | some m => exact hmax m h
  · rintro ⟨hmin, hmax⟩
    refine ⟨fun m hm => ?_, fun m hm => ?_⟩
    · rw [Range.low, mem_def.mp hm] at hmin
      exact hmin
    · rw [Range.high, mem_def.mp hm] at hmax
      exact hmax

/-- The range has no value. -/
def Range.Empty (r : Range) : Prop := r.high < r.low

/-- Each integer between the ends is a value of the range. -/
theorem Range.exists_contains (hlow : L.low ≤ n) (hhigh : n ≤ L.high) :
    ∃ v : BitVec 64, v.toInt = n ∧ L.Contains v := by
  have hl := L.low_i64.1
  have hh := L.high_i64.2
  obtain ⟨v, rfl⟩ := I64.exists (n := n) ⟨by omega, by omega⟩
  exact ⟨v, rfl, contains_iff.mpr ⟨hlow, hhigh⟩⟩

/-! ## Sums and differences -/

/-- A bound that is kept is one for the values that wrap: on its side nothing is beyond it, or nothing wraps. -/
def OneSided (hasLow hasHigh : Prop) (a b : ℤ) : Prop :=
  (hasLow → I64 a → b < 2 ^ 63 ∨ a = -2 ^ 63) ∧ (hasHigh → I64 b → -2 ^ 63 ≤ a ∨ b = 2 ^ 63 - 1)

/-- The integers between `a` and `b`, wrapped, keep to the ends that are words exactly under `OneSided`. -/
theorem wrap_iff_oneSided {hasLow hasHigh : Prop} (hab : a ≤ b) (ha : -2 ^ 64 ≤ a) (hb : b < 2 ^ 64) :
    (∀ n, a ≤ n → n ≤ b → (hasLow → I64 a → a ≤ n.bmod (2 ^ 64)) ∧ (hasHigh → I64 b → n.bmod (2 ^ 64) ≤ b)) ↔
      OneSided hasLow hasHigh a b := by
  constructor
  · intro h
    constructor
    · intro hhas hword
      by_contra hcon
      have hlow := (h (2 ^ 63) (by unfold I64 at hword; omega) (by omega)).1 hhas hword
      have hwrap : (2 ^ 63 : ℤ).bmod (2 ^ 64) = -2 ^ 63 := by decide
      unfold I64 at hword
      omega
    · intro hhas hword
      by_contra hcon
      have hhigh := (h (-2 ^ 63 - 1) (by omega) (by unfold I64 at hword; omega)).2 hhas hword
      have hwrap : (-2 ^ 63 - 1 : ℤ).bmod (2 ^ 64) = 2 ^ 63 - 1 := by decide
      unfold I64 at hword
      omega
  · rintro ⟨hlow, hhigh⟩ n han hnb
    have hwrap := bmod_cases (n := n) (by omega) (by omega)
    constructor
    · intro hhas hword
      have := hlow hhas hword
      omega
    · intro hhas hword
      have := hhigh hhas hword
      omega

/-- The operation on words finds the integer that `g` gives, when that is a word. -/
def Checks (op : BitVec 64 → BitVec 64 → Option (BitVec 64)) (g : ℤ → ℤ → ℤ) : Prop :=
  ∀ x y m, op x y = some m ↔ I64 (g x.toInt y.toInt) ∧ m.toInt = g x.toInt y.toInt

/-- The checked addition fails exactly where the sum leaves 64 bits. -/
theorem checks_add : Checks addChecked (· + ·) := by
  intro x y m
  show addChecked x y = some m ↔ I64 (x.toInt + y.toInt) ∧ m.toInt = x.toInt + y.toInt
  unfold addChecked
  have hiff : x.saddOverflow y = true ↔ ¬ I64 (x.toInt + y.toInt) := by
    simp only [BitVec.saddOverflow, Bool.or_eq_true, decide_eq_true_eq]
    unfold I64
    omega
  split
  · simp [hiff.mp ‹_›]
  · rename_i hover
    rw [← BitVec.toInt_add_of_not_saddOverflow hover, BitVec.toInt_inj, some.injEq, eq_comm]
    exact ⟨fun h => ⟨i64_toInt _, h⟩, And.right⟩

theorem checks_sub : Checks subChecked (· - ·) := by
  intro x y m
  show subChecked x y = some m ↔ I64 (x.toInt - y.toInt) ∧ m.toInt = x.toInt - y.toInt
  unfold subChecked
  have hiff : x.ssubOverflow y = true ↔ ¬ I64 (x.toInt - y.toInt) := by
    simp only [BitVec.ssubOverflow, Bool.or_eq_true, decide_eq_true_eq]
    unfold I64
    omega
  split
  · simp [hiff.mp ‹_›]
  · rename_i hover
    rw [← BitVec.toInt_sub_of_not_ssubOverflow hover, BitVec.toInt_inj, some.injEq, eq_comm]
    exact ⟨fun h => ⟨i64_toInt _, h⟩, And.right⟩

/-- What a checked bound says, with what stands for the bounds that are missing. -/
theorem forall_boundOf {op : BitVec 64 → BitVec 64 → Option (BitVec 64)} {g : ℤ → ℤ → ℤ} (hop : Checks op g)
    {a b : Option (BitVec 64)} (d e : ℤ) :
    (∀ m ∈ boundOf op a b, P m.toInt) ↔
      (a.isSome ∧ b.isSome → I64 (g ((a.map BitVec.toInt).getD d) ((b.map BitVec.toInt).getD e)) →
        P (g ((a.map BitVec.toInt).getD d) ((b.map BitVec.toInt).getD e))) := by
  rcases a with _ | x <;> rcases b with _ | y <;> simp only [boundOf, not_mem_none, false_implies,
    implies_true, isSome_none, isSome_some, Bool.false_eq_true, and_false, false_and, and_self,
    forall_const, map_some, getD_some]
  constructor
  · intro h hword
    obtain ⟨m, hm⟩ := hword.exists
    exact hm ▸ h m ((hop x y m).mpr ⟨hword, hm⟩)
  · intro h m hm
    obtain ⟨hword, heq⟩ := (hop x y m).mp hm
    exact heq ▸ h hword

/-- To be contained is to respect each bound that is there. -/
theorem contains_mk {a b : Option (BitVec 64)} :
    Range.Contains ⟨a, b⟩ v ↔ (∀ m ∈ a, m.toInt ≤ v.toInt) ∧ ∀ m ∈ b, v.toInt ≤ m.toInt :=
  ⟨fun h => ⟨h.min_le, h.le_max⟩, fun h => ⟨h.1, h.2⟩⟩

/-- A monotone operation carries the bounds along. -/
theorem Range.Contains.map {f : BitVec 64 → BitVec 64} (h : L.Contains v)
    (hf : ∀ a b, a.toInt ≤ b.toInt → (f a).toInt ≤ (f b).toInt) :
    Range.Contains ⟨L.min.map f, L.max.map f⟩ (f v) := by
  refine contains_mk.mpr ⟨fun m hm => ?_, fun m hm => ?_⟩
  all_goals obtain ⟨b, hb, rfl⟩ := mem_map.mp hm
  · exact hf _ _ (h.min_le b hb)
  · exact hf _ _ (h.le_max b hb)

/-- The sums of two intervals of integers. -/
theorem forall_sum_iff (hab : a ≤ b) (hcd : c ≤ d) :
    (∀ x, a ≤ x → x ≤ b → ∀ y, c ≤ y → y ≤ d → P (x + y)) ↔ ∀ n, a + c ≤ n → n ≤ b + d → P n := by
  constructor
  · intro h n hlow hhigh
    have := h (max a (n - d)) (le_max_left _ _) (max_le (by omega) (by omega)) (n - max a (n - d)) (by omega) (by omega)
    rwa [add_sub_cancel] at this
  · intro h x hax hxb y hcy hyd
    exact h _ (add_le_add hax hcy) (add_le_add hxb hyd)

/-- The differences of two intervals are the interval between the extreme differences. -/
theorem forall_difference_iff (hab : a ≤ b) (hcd : c ≤ d) :
    (∀ x, a ≤ x → x ≤ b → ∀ y, c ≤ y → y ≤ d → P (x - y)) ↔ ∀ n, a - d ≤ n → n ≤ b - c → P n := by
  rw [sub_eq_add_neg a, sub_eq_add_neg b, ← forall_sum_iff hab (neg_le_neg hcd)]
  refine forall₃_congr fun x _ _ => ⟨fun h y hlow hhigh => ?_, fun h y hlow hhigh => ?_⟩
  · have := h (-y) (by omega) (by omega)
    rwa [sub_neg_eq_add] at this
  · exact h (-y) (neg_le_neg hhigh) (neg_le_neg hlow)

/-- What holds of the values of a range holds of the integers between its ends. -/
theorem forall_contains_iff : (∀ v, L.Contains v → P v.toInt) ↔ ∀ n, L.low ≤ n → n ≤ L.high → P n := by
  constructor
  · intro h n hlow hhigh
    obtain ⟨v, rfl, hv⟩ := L.exists_contains hlow hhigh
    exact h v hv
  · intro h v hv
    obtain ⟨hlow, hhigh⟩ := contains_iff.mp hv
    exact h _ hlow hhigh

/-- When the range of a sum has every sum. -/
theorem rangeBinaryAdd_iff (hL : ¬ L.Empty) (hR : ¬ R.Empty) :
    (∀ l, L.Contains l → ∀ r, R.Contains r → (rangeBinaryAdd L R).Contains (l + r)) ↔
      OneSided (L.min.isSome ∧ R.min.isSome) (L.max.isSome ∧ R.max.isSome) (L.low + R.low) (L.high + R.high) := by
  have hL := not_lt.mp hL
  have hR := not_lt.mp hR
  obtain ⟨⟨hL₁, -⟩, -, hL₂⟩ := And.intro L.low_i64 L.high_i64
  obtain ⟨⟨hR₁, -⟩, -, hR₂⟩ := And.intro R.low_i64 R.high_i64
  rw [← wrap_iff_oneSided (by omega) (by omega) (by omega), ← forall_sum_iff hL hR, ← forall_contains_iff]
  refine forall₂_congr fun l _ => ?_
  rw [← forall_contains_iff]
  refine forall₂_congr fun r _ => ?_
  rw [rangeBinaryAdd, contains_mk, BitVec.toInt_add]
  exact and_congr (forall_boundOf checks_add (P := fun m => m ≤ (l.toInt + r.toInt).bmod (2 ^ 64)) _ _)
    (forall_boundOf checks_add (P := fun m => (l.toInt + r.toInt).bmod (2 ^ 64) ≤ m) _ _)

/-- When the range of a difference has every difference. -/
theorem rangeBinarySub_iff (hL : ¬ L.Empty) (hR : ¬ R.Empty) :
    (∀ l, L.Contains l → ∀ r, R.Contains r → (rangeBinarySub L R).Contains (l - r)) ↔
      OneSided (L.min.isSome ∧ R.max.isSome) (L.max.isSome ∧ R.min.isSome) (L.low - R.high) (L.high - R.low) := by
  have hL := not_lt.mp hL
  have hR := not_lt.mp hR
  obtain ⟨⟨hL₁, -⟩, -, hL₂⟩ := And.intro L.low_i64 L.high_i64
  obtain ⟨⟨hR₁, -⟩, -, hR₂⟩ := And.intro R.low_i64 R.high_i64
  rw [← wrap_iff_oneSided (by omega) (by omega) (by omega), ← forall_difference_iff hL hR, ← forall_contains_iff]
  refine forall₂_congr fun l _ => ?_
  rw [← forall_contains_iff]
  refine forall₂_congr fun r _ => ?_
  rw [rangeBinarySub, contains_mk, BitVec.toInt_sub]
  exact and_congr (forall_boundOf checks_sub (P := fun m => m ≤ (l.toInt - r.toInt).bmod (2 ^ 64)) _ _)
    (forall_boundOf checks_sub (P := fun m => (l.toInt - r.toInt).bmod (2 ^ 64) ≤ m) _ _)

/-! ## Products -/

/-- A product lies between bounds that both ends of one factor respect. -/
theorem mul_between {low high : ℤ} (hax : a ≤ x) (hxb : x ≤ b) (halow : low ≤ a * y) (hblow : low ≤ b * y)
    (hahigh : a * y ≤ high) (hbhigh : b * y ≤ high) : low ≤ x * y ∧ x * y ≤ high := by
  rcases le_total 0 y with hy | hy
  · have h1 := mul_le_mul_of_nonneg_right hax hy
    have h2 := mul_le_mul_of_nonneg_right hxb hy
    exact ⟨halow.trans h1, h2.trans hbhigh⟩
  · have h1 := mul_le_mul_of_nonpos_right hax hy
    have h2 := mul_le_mul_of_nonpos_right hxb hy
    exact ⟨hblow.trans h2, h1.trans hahigh⟩

/-- A product lies between bounds that the products of the ends keep to. -/
theorem mul_between_corners {low high : ℤ} (hax : a ≤ x) (hxb : x ≤ b) (hcy : c ≤ y) (hyd : y ≤ d)
    (hac : low ≤ a * c ∧ a * c ≤ high) (had : low ≤ a * d ∧ a * d ≤ high) (hbc : low ≤ b * c ∧ b * c ≤ high)
    (hbd : low ≤ b * d ∧ b * d ≤ high) : low ≤ x * y ∧ x * y ≤ high := by
  have hay : low ≤ a * y ∧ a * y ≤ high := by
    have : low ≤ y * a ∧ y * a ≤ high := mul_between hcy hyd (by rw [mul_comm]; exact hac.1)
      (by rw [mul_comm]; exact had.1) (by rw [mul_comm]; exact hac.2) (by rw [mul_comm]; exact had.2)
    rwa [mul_comm y a] at this
  have hby : low ≤ b * y ∧ b * y ≤ high := by
    have : low ≤ y * b ∧ y * b ≤ high := mul_between hcy hyd (by rw [mul_comm]; exact hbc.1)
      (by rw [mul_comm]; exact hbd.1) (by rw [mul_comm]; exact hbc.2) (by rw [mul_comm]; exact hbd.2)
    rwa [mul_comm y b] at this
  exact mul_between hax hxb hay.1 hby.1 hay.2 hby.2

/-- The loop over the products finds bounds for all of them. -/
theorem foldl_products_bounds (products : List (BitVec 64)) (lo hi : BitVec 64) :
    let r := products.foldl (fun (min, max) p => (if p.slt min then p else min, if max.slt p then p else max)) (lo, hi)
    r.1.toInt ≤ lo.toInt ∧ hi.toInt ≤ r.2.toInt ∧ ∀ p ∈ products, r.1.toInt ≤ p.toInt ∧ p.toInt ≤ r.2.toInt := by
  induction products generalizing lo hi with
  | nil => exact ⟨le_rfl, le_rfl, fun _ h => absurd h List.not_mem_nil⟩
  | cons p products ih =>
    obtain ⟨hlo, hhi, hall⟩ := ih (if p.slt lo then p else lo) (if hi.slt p then p else hi)
    have hmin : (if p.slt lo then p else lo).toInt ≤ lo.toInt ∧ (if p.slt lo then p else lo).toInt ≤ p.toInt := by
      split
      · exact ⟨(BitVec.slt_iff_toInt_lt.mp ‹_›).le, le_rfl⟩
      · exact ⟨le_rfl, not_lt.mp fun h => absurd (BitVec.slt_iff_toInt_lt.mpr h) ‹_›⟩
    have hmax : hi.toInt ≤ (if hi.slt p then p else hi).toInt ∧ p.toInt ≤ (if hi.slt p then p else hi).toInt := by
      split
      · exact ⟨(BitVec.slt_iff_toInt_lt.mp ‹_›).le, le_rfl⟩
      · exact ⟨le_rfl, not_lt.mp fun h => absurd (BitVec.slt_iff_toInt_lt.mpr h) ‹_›⟩
    refine ⟨hlo.trans hmin.1, hmax.1.trans hhi, fun q hq => ?_⟩
    rcases List.mem_cons.mp hq with rfl | hq
    · exact ⟨hlo.trans hmin.2, hmax.2.trans hhi⟩
    · exact hall q hq

/-- A product that passes the check is the product of the integers. -/
theorem mulChecked_eq_some {a b p : BitVec 64} (h : mulChecked a b = some p) : p.toInt = a.toInt * b.toInt := by
  unfold mulChecked at h
  split at h
  · cases h
  · rw [← some.inj h]
    exact BitVec.toInt_mul_of_not_smulOverflow ‹_›

/-- A product is in the range that its four corners span. -/
theorem rangeBinaryMul_contains {r : BitVec 64} (hl : L.Contains l) (hr : R.Contains r) :
    (rangeBinaryMul L R).Contains (l * r) := by
  unfold rangeBinaryMul
  split
  · rename_i lmin lmax rmin rmax hlmin hlmax hrmin hrmax
    split
    · rename_i p₀ p₁ p₂ p₃ h₀ h₁ h₂ h₃
      obtain ⟨hlow, hhigh, hall⟩ := foldl_products_bounds [p₁, p₂, p₃] p₀ p₀
      unfold rangeOfProducts
      have hp₁ := hall p₁ (by simp)
      have hp₂ := hall p₂ (by simp)
      have hp₃ := hall p₃ (by simp)
      rw [mulChecked_eq_some h₀] at hlow hhigh
      rw [mulChecked_eq_some h₁] at hp₁
      rw [mulChecked_eq_some h₂] at hp₂
      rw [mulChecked_eq_some h₃] at hp₃
      have hbetween := mul_between_corners (hl.min_le _ hlmin) (hl.le_max _ hlmax) (hr.min_le _ hrmin)
        (hr.le_max _ hrmax) ⟨hlow, hhigh⟩ hp₁ hp₂ hp₃
      have hwrap : (l * r).toInt = l.toInt * r.toInt := by
        rw [BitVec.toInt_mul]
        have h1 := BitVec.le_toInt ([p₁, p₂, p₃].foldl
          (fun (min, max) p => (if p.slt min then p else min, if max.slt p then p else max)) (p₀, p₀)).1
        have h2 := BitVec.toInt_lt (x := ([p₁, p₂, p₃].foldl
          (fun (min, max) p => (if p.slt min then p else min, if max.slt p then p else max)) (p₀, p₀)).2)
        exact Int.bmod_eq_of_le (by omega) (by omega)
      dsimp only
      rw [contains_mk, hwrap]
      exact ⟨fun m hm => some.inj hm ▸ hbetween.1, fun m hm => some.inj hm ▸ hbetween.2⟩
    · exact contains_unknown _
  · exact contains_unknown _

/-! ## Remainders and quotients -/

theorem sle_zero_iff : v.sle 0 = true ↔ v.toInt ≤ 0 := BitVec.sle_iff_toInt_le

theorem zero_sle_iff : (0 : BitVec 64).sle v = true ↔ 0 ≤ v.toInt := BitVec.sle_iff_toInt_le

/-- Below a positive word is the integer before it. -/
theorem toInt_sub_one (h : 0 < v.toInt) : (v - 1).toInt = v.toInt - 1 := by
  have hlt := v.toInt_lt
  rw [BitVec.toInt_sub, show (1 : BitVec 64).toInt = 1 from rfl]
  exact Int.bmod_eq_of_le (by omega) (by omega)

/-- The negation of a word that is not negative does not wrap. -/
theorem toInt_neg_of_nonneg (h : 0 ≤ v.toInt) : (-v).toInt = -v.toInt := by
  have hlt := v.toInt_lt
  rw [BitVec.toInt_neg]
  exact Int.bmod_eq_of_le (by omega) (by omega)

/-- A remainder is smaller than the divisor and has the sign of the dividend. -/
theorem rangeBinaryModulo_contains {r : BitVec 64} (hl : haveL = true → L.Contains l) (hr : R.Contains r) :
    (rangeBinaryModulo L R haveL).Contains (l.srem r) := by
  unfold rangeBinaryModulo
  split
  · rename_i rmin rmax hrmin hrmax
    split
    · exact contains_unknown _
    · rename_i hpos
      have hpos : 0 < rmin.toInt := not_le.mp fun h => hpos (sle_zero_iff.mpr h)
      have hmin := hr.min_le _ hrmin
      have hmax := hr.le_max _ hrmax
      have hlast := toInt_sub_one (show 0 < rmax.toInt by omega)
      have hlt := Int.tmod_lt_of_pos l.toInt (show 0 < r.toInt by omega)
      rw [contains_mk, BitVec.toInt_srem]
      refine ⟨fun m hm => ?_, fun m hm => ?_⟩
      · rw [← some.inj hm]
        split
        · rename_i hnonneg
          obtain ⟨hhave, hany⟩ := Bool.and_eq_true_iff.mp hnonneg
          obtain ⟨lmin, hlmin, hsle⟩ := (any_eq_true _ _).mp hany
          have hle := (hl hhave).min_le _ hlmin
          exact Int.tmod_nonneg _ ((zero_sle_iff.mp hsle).trans hle)
        · have hneg : -(l.toInt.tmod r.toInt) < r.toInt := by
            rw [← Int.neg_tmod]
            exact Int.tmod_lt_of_pos _ (by omega)
          rw [toInt_neg_of_nonneg (by omega), hlast]
          omega
      · rw [← some.inj hm, hlast]
        omega
  · exact contains_unknown _

/-- A quotient by a positive word rounds towards zero. -/
theorem toInt_sdiv_of_pos {r : BitVec 64} (h : 0 < r.toInt) : (m.sdiv r).toInt = m.toInt.tdiv r.toInt := by
  refine BitVec.toInt_sdiv_of_ne_or_ne m r (.inr ?_)
  rintro rfl
  exact absurd h (by decide)

/-- A quotient by a constant is between the quotients of the bounds. -/
theorem rangeBinaryDivide_contains {r : BitVec 64} (hl : L.Contains l) (hr : R.Contains r) :
    (rangeBinaryDivide L R).Contains (l.sdiv r) := by
  unfold rangeBinaryDivide
  split
  · rename_i rmin rmax hrmin hrmax
    split
    · exact contains_unknown _
    · rename_i hcond
      obtain ⟨hsame, hpos⟩ := not_or.mp hcond
      rw [not_not] at hsame
      have hpos : 0 < rmin.toInt := not_le.mp fun h => hpos (sle_zero_iff.mpr h)
      rw [hr.eq_of_exact hrmin (hsame ▸ hrmax)]
      refine hl.map fun a b hab => ?_
      rw [toInt_sdiv_of_pos hpos, toInt_sdiv_of_pos hpos]
      exact Int.tdiv_le_tdiv hpos hab
  · exact contains_unknown _

/-! ## Masks -/

/-- A mask without the sign bit bounds what is left under it. -/
theorem and_bounds (h : 0 ≤ m.toInt) : 0 ≤ (v &&& m).toInt ∧ (v &&& m).toInt ≤ m.toInt := by
  have hm : m.toNat < 2 ^ 63 := by
    rw [BitVec.toInt_eq_toNat_cond] at h
    split at h <;> omega
  have hle : (v &&& m).toNat ≤ m.toNat := by
    exact Nat.and_le_right
  have hand : (v &&& m).toInt = (v &&& m).toNat := BitVec.toInt_eq_toNat_of_lt (by omega)
  have hmask : m.toInt = m.toNat := BitVec.toInt_eq_toNat_of_lt (by omega)
  omega

/-- A mask that the code takes for one is the only value of its range, and not negative. -/
theorem rangeConstantMask_eq_some {r : Range} {mask : BitVec 64} (h : rangeConstantMask r = some mask)
    (hv : r.Contains v) : v = mask ∧ 0 ≤ mask.toInt := by
  unfold rangeConstantMask at h
  split at h
  · rename_i min max hmin hmax
    split at h
    · cases h
    · rename_i hcond
      obtain ⟨hsame, hneg⟩ := not_or.mp hcond
      rw [not_not] at hsame
      cases h
      exact ⟨hv.eq_of_exact hmin (hsame ▸ hmax), not_lt.mp fun hlt => hneg (BitVec.slt_iff_toInt_lt.mpr hlt)⟩
  · cases h

/-- A range from zero to a bound. -/
theorem contains_zero_to (hlow : 0 ≤ v.toInt) (hhigh : v.toInt ≤ m.toInt) : Range.Contains ⟨some 0, some m⟩ v :=
  contains_mk.mpr ⟨fun _ h => some.inj h ▸ hlow, fun _ h => some.inj h ▸ hhigh⟩

/-- A conjunction is between zero and any mask that is not negative. -/
theorem rangeBinaryAnd_contains {r : BitVec 64} (hl : L.Contains l) (hr : R.Contains r) :
    (rangeBinaryAnd L R haveL haveR).Contains (l &&& r) := by
  unfold rangeBinaryAnd
  split
  -- a nonnegative mask bounds the result by itself
  · rename_i mask hmask
    rcases hright : (if haveR then rangeConstantMask R else none) with _ | m
    · rw [hright] at hmask
      split at hmask
      · obtain ⟨rfl, hpos⟩ := rangeConstantMask_eq_some hmask hl
        rw [BitVec.and_comm]
        exact contains_zero_to (and_bounds hpos).1 (and_bounds hpos).2
      · cases hmask
    · rw [hright] at hmask
      split at hright
      · obtain ⟨rfl, hpos⟩ := rangeConstantMask_eq_some hright hr
        rw [← some.inj hmask]
        exact contains_zero_to (and_bounds hpos).1 (and_bounds hpos).2
      · cases hright
  · split
    · exact contains_unknown _
    -- otherwise both sides are nonnegative, and the result is below each
    · rename_i hcond
      obtain ⟨-, hcond⟩ := not_or.mp hcond
      obtain ⟨-, hcond⟩ := not_or.mp hcond
      obtain ⟨hlpos, hrpos⟩ := not_or.mp hcond
      have hl0 : 0 ≤ l.toInt := by
        obtain ⟨m, hm, hsle⟩ := (any_eq_true _ _).mp (by simpa using hlpos)
        exact (zero_sle_iff.mp hsle).trans (hl.min_le _ hm)
      have hr0 : 0 ≤ r.toInt := by
        obtain ⟨m, hm, hsle⟩ := (any_eq_true _ _).mp (by simpa using hrpos)
        exact (zero_sle_iff.mp hsle).trans (hr.min_le _ hm)
      have hright := and_bounds (v := l) hr0
      have hleft := and_bounds (v := r) hl0
      rw [BitVec.and_comm] at hleft
      split
      · exact contains_unknown _
      · rename_i lmax rmax hlmax hrmax
        refine contains_zero_to hright.1 ?_
        split
        · exact hleft.2.trans (hl.le_max _ hlmax)
        · exact hright.2.trans (hr.le_max _ hrmax)
      · rename_i lmax hlmax _
        exact contains_zero_to hright.1 (hleft.2.trans (hl.le_max _ hlmax))
      · rename_i rmax _ hrmax
        exact contains_zero_to hright.1 (hright.2.trans (hr.le_max _ hrmax))

/-! ## Shifts -/

/-- The floor of minus a quotient, from the quotient and what it loses. -/
theorem neg_ediv_eq (m : ℕ) {d : ℕ} (hd : 0 < d) :
    -(m : ℤ) / d = if m % d ≠ 0 then -((m / d : ℕ) + 1 : ℤ) else -((m / d : ℕ) : ℤ) := by
  have hm := Nat.div_add_mod m d
  have hlt := Nat.mod_lt m hd
  have hsplit : (d : ℤ) * (m / d : ℕ) + (m % d : ℕ) = m := by exact_mod_cast hm
  split
  · have : -(m : ℤ) / d = -((m / d : ℕ) + 1 : ℤ) ∧ -(m : ℤ) % d = d - (m % d : ℕ) := by
      refine (Int.ediv_emod_unique (by exact_mod_cast hd)).mpr ⟨?_, by omega, by omega⟩
      linear_combination -hsplit
    exact this.1
  · rename_i hrem
    rw [not_not] at hrem
    have : -(m : ℤ) / d = -((m / d : ℕ) : ℤ) ∧ -(m : ℤ) % d = 0 := by
      refine (Int.ediv_emod_unique (by exact_mod_cast hd)).mpr ⟨?_, le_rfl, by exact_mod_cast hd⟩
      rw [hrem] at hsplit
      linear_combination -hsplit
    exact this.1

/-- `shift_right_floor` rounds down. -/
theorem shiftRightFloor_toInt (v : BitVec 64) {k : ℕ} (hk : k < 63) :
    (shiftRightFloor v k).toInt = v.toInt / 2 ^ k := by
  unfold shiftRightFloor
  split
  · rename_i hzero
    rw [hzero, pow_zero, Int.ediv_one]
  -- a negative value is shifted as its absolute value, plus one where bits fall off
  · split
    · rw [BitVec.toInt_sshiftRight, Int.shiftRight_eq_div_pow]
      rfl
    · rename_i hzero hneg
      have hneg : v.toInt < 0 := not_le.mp fun h => hneg (zero_sle_iff.mpr h)
      have hmagnitude : -(v + 1) + 1 = -v := by ring
      have hv : v.toInt = -((-v).toNat : ℤ) := by
        rw [BitVec.toNat_neg]
        rw [BitVec.toInt_eq_toNat_cond] at hneg ⊢
        split at hneg <;> omega
      have hpow : 2 ^ k < 2 ^ 63 := Nat.pow_lt_pow_right (by norm_num) hk
      have hle : 2 ≤ 2 ^ k := by
        calc 2 = 2 ^ 1 := rfl
          _ ≤ 2 ^ k := Nat.pow_le_pow_right (by norm_num) (Nat.pos_of_ne_zero hzero)
      have hshifted : ((-v) >>> k).toNat = (-v).toNat / 2 ^ k := by
        rw [BitVec.toNat_ushiftRight, Nat.shiftRight_eq_div_pow]
      have hlost : ((-v) &&& (((1 : BitVec 64) <<< k) - 1)).toNat = (-v).toNat % 2 ^ k := by
        rw [BitVec.toNat_and, ← Nat.and_two_pow_sub_one_eq_mod]
        congr 1
        have hone : ((1 : BitVec 64) <<< k).toNat = 2 ^ k := by
          rw [BitVec.toNat_shiftLeft, Nat.shiftLeft_eq]
          show 1 * 2 ^ k % 2 ^ 64 = 2 ^ k
          rw [one_mul, Nat.mod_eq_of_lt (by omega)]
        rw [BitVec.toNat_sub_of_le (BitVec.le_def.mpr (by rw [hone]; exact Nat.one_le_two_pow)), hone]
        rfl
      have hbound : (-v).toNat / 2 ^ k ≤ 2 ^ 62 := by
        have hlow := v.le_toInt
        calc (-v).toNat / 2 ^ k ≤ 2 ^ 63 / 2 ^ k := Nat.div_le_div_right (by omega)
          _ ≤ 2 ^ 63 / 2 := Nat.div_le_div_left hle (by norm_num)
          _ = 2 ^ 62 := by norm_num
      rw [hv, show (2 : ℤ) ^ k = ((2 ^ k : ℕ) : ℤ) by norm_cast, neg_ediv_eq _ (by omega)]
      rw [hmagnitude]
      have hiff : (-v) &&& (((1 : BitVec 64) <<< k) - 1) ≠ 0 ↔ (-v).toNat % 2 ^ k ≠ 0 := by
        rw [← hlost, ne_eq, ne_eq, not_iff_not]
        exact ⟨fun h => by rw [h]; rfl, fun h => BitVec.eq_of_toNat_eq h⟩
      have hneg_toInt : ∀ w : BitVec 64, w.toNat < 2 ^ 63 → (-w).toInt = -(w.toNat : ℤ) := by
        intro w hw
        have hint : w.toInt = w.toNat := BitVec.toInt_eq_toNat_of_lt (by omega)
        rw [toInt_neg_of_nonneg (by omega), hint]
      by_cases hrem : (-v).toNat % 2 ^ k ≠ 0
      · have hnext : ((-v) >>> k + 1).toNat = (-v).toNat / 2 ^ k + 1 := by
          rw [BitVec.toNat_add, hshifted]
          exact Nat.mod_eq_of_lt (by show _ + 1 < _; omega)
        rw [if_pos (hiff.mpr hrem), if_pos hrem, hneg_toInt _ (by omega), hnext]
        rfl
      · rw [if_neg (fun h => hrem (hiff.mp h)), if_neg hrem, hneg_toInt _ (by omega), hshifted]

/-- A shifted value is between the shifted bounds. -/
theorem rangeBinaryShiftRight_contains {r : BitVec 64} (hl : L.Contains l) (hr : R.Contains r) :
    (rangeBinaryShiftRight L R).Contains (l.sshiftRight (r.toNat % 64)) := by
  unfold rangeBinaryShiftRight
  split
  · rename_i lmin rmin rmax hlmin hrmin hrmax
    split
    · exact contains_unknown _
    · rename_i hcond
      obtain ⟨hsame, hcond⟩ := not_or.mp hcond
      obtain ⟨hneg, hlarge⟩ := not_or.mp hcond
      rw [not_not] at hsame
      have hnonneg : 0 ≤ rmin.toInt := not_lt.mp fun h => hneg (BitVec.slt_iff_toInt_lt.mpr h)
      have hsmall : rmin.toInt < 63 := not_le.mp fun h => hlarge (BitVec.sle_iff_toInt_le.mpr h)
      have hnat : rmin.toNat < 63 := by
        rw [BitVec.toInt_eq_toNat_cond] at hnonneg hsmall
        split at hnonneg <;> omega
      have hshift : r.toNat % 64 = rmin.toNat := by
        rw [hr.eq_of_exact hrmin (hsame ▸ hrmax), Nat.mod_eq_of_lt (by omega)]
      have hfloor : l.sshiftRight rmin.toNat = shiftRightFloor l rmin.toNat := BitVec.toInt_inj.mp <| by
        rw [shiftRightFloor_toInt l hnat, BitVec.toInt_sshiftRight, Int.shiftRight_eq_div_pow]
        norm_cast
      have hmono : ∀ a b : BitVec 64, a.toInt ≤ b.toInt →
          (shiftRightFloor a rmin.toNat).toInt ≤ (shiftRightFloor b rmin.toNat).toInt := fun a b hab => by
        rw [shiftRightFloor_toInt a hnat, shiftRightFloor_toInt b hnat]
        exact Int.ediv_le_ediv (by positivity) hab
      have hmap := hl.map hmono
      rw [hlmin, map_some] at hmap
      rwa [hshift, hfloor]
  · exact contains_unknown _

/-! ## The binary operators -/

/-- When the range of a binary operator has every value: a sum or difference that keeps a bound on one side does
not overflow on the other, or the kept bound is the end of the words on its side. -/
def BinaryHolds (op : String) (L R : Range) (haveL haveR : Bool) : Prop :=
  L.Empty ∨ R.Empty ∨ (haveL && haveR) = false ∨
    (op = "+" → OneSided (L.min.isSome ∧ R.min.isSome) (L.max.isSome ∧ R.max.isSome)
      (L.low + R.low) (L.high + R.high)) ∧
    (op = "-" → OneSided (L.min.isSome ∧ R.max.isSome) (L.max.isSome ∧ R.min.isSome)
      (L.low - R.high) (L.high - R.low))

theorem not_contains_of_empty (h : L.Empty) : ¬ L.Contains v := by
  intro hv
  obtain ⟨hlow, hhigh⟩ := contains_iff.mp hv
  exact absurd (hlow.trans hhigh) (not_le.mpr h)

/-- The operators other than sums and differences. -/
theorem rangeBinaryOperator_contains {op : String} {r : BitVec 64} (hadd : ¬ (op = "+" ∧ (haveL && haveR) = true))
    (hsub : ¬ (op = "-" ∧ (haveL && haveR) = true)) (hl : L.Contains l) (hr : R.Contains r)
    (hv : evalBinary op l r = some v) : (rangeBinaryOperator op L R haveL haveR).Contains v := by
  unfold rangeBinaryOperator
  rw [if_neg hadd, if_neg hsub]
  split
  · rename_i hop
    rw [evalBinary, if_neg (by simp [hop.1]), if_neg (by simp [hop.1]), if_pos hop.1] at hv
    exact some.inj hv ▸ rangeBinaryMul_contains hl hr
  · split
    · rename_i hop
      rw [evalBinary, if_neg (by simp [hop.1]), if_neg (by simp [hop.1]), if_neg (by simp [hop.1]), if_pos hop.1]
        at hv
      split at hv
      · cases hv
      · exact some.inj hv ▸ rangeBinaryModulo_contains (fun _ => hl) hr
    · split
      · rename_i hop
        rw [evalBinary, if_neg (by simp [hop.1]), if_neg (by simp [hop.1]), if_neg (by simp [hop.1]),
          if_neg (by simp [hop.1]), if_pos hop.1] at hv
        split at hv
        · cases hv
        · exact some.inj hv ▸ rangeBinaryDivide_contains hl hr
      · split
        · rename_i hop
          rw [evalBinary, if_neg (by simp [hop]), if_neg (by simp [hop]), if_neg (by simp [hop]),
            if_neg (by simp [hop]), if_neg (by simp [hop]), if_pos hop] at hv
          exact some.inj hv ▸ rangeBinaryAnd_contains hl hr
        · split
          · rename_i hop
            rw [evalBinary, if_neg (by simp [hop.1]), if_neg (by simp [hop.1]), if_neg (by simp [hop.1]),
              if_neg (by simp [hop.1]), if_neg (by simp [hop.1]), if_neg (by simp [hop.1]), if_pos hop.1] at hv
            exact some.inj hv ▸ rangeBinaryShiftRight_contains hl hr
          · exact contains_unknown _

/-- The range of a binary operator is right exactly under the conditions of its operator. -/
theorem rangeBinaryOperator_iff (op : String) (L R : Range) (haveL haveR : Bool) :
    (∀ l r v, L.Contains l → R.Contains r → evalBinary op l r = some v →
      (rangeBinaryOperator op L R haveL haveR).Contains v) ↔ BinaryHolds op L R haveL haveR := by
  unfold BinaryHolds
  -- an empty side has no values, so nothing is asked
  by_cases hL : L.Empty
  · exact iff_of_true (fun _ _ _ h => absurd h (not_contains_of_empty hL)) (.inl hL)
  by_cases hR : R.Empty
  · exact iff_of_true (fun _ _ _ _ h => absurd h (not_contains_of_empty hR)) (.inr (.inl hR))
  simp only [hL, hR, false_or]
  -- with both ranges given, operator by operator; otherwise the result is the unknown range
  by_cases hboth : (haveL && haveR) = true
  · simp only [hboth, Bool.true_eq_false, false_or]
    by_cases hadd : op = "+"
    · subst hadd
      have heval : ∀ l r v : BitVec 64, evalBinary "+" l r = some v ↔ v = l + r := by
        intro l r v
        rw [evalBinary, if_pos rfl, some.injEq, eq_comm]
      simp only [heval, rangeBinaryOperator, hboth, and_self, if_true, forall_const,
        String.reduceEq, false_implies, and_true]
      rw [← rangeBinaryAdd_iff hL hR]
      exact ⟨fun h l hl r hr => h l r _ hl hr rfl, fun h l r v hl hr hv => hv ▸ h l hl r hr⟩
    · by_cases hsub : op = "-"
      · subst hsub
        have heval : ∀ l r v : BitVec 64, evalBinary "-" l r = some v ↔ v = l - r := by
          intro l r v
          rw [evalBinary, if_neg (by decide), if_pos rfl, some.injEq, eq_comm]
        simp only [heval, rangeBinaryOperator, hboth, and_self, if_true, forall_const, String.reduceEq,
          false_and, if_false, false_implies, true_and]
        rw [← rangeBinarySub_iff hL hR]
        exact ⟨fun h l hl r hr => h l r _ hl hr rfl, fun h l r v hl hr hv => hv ▸ h l hl r hr⟩
      · exact iff_of_true
          (fun l r v hl hr hv => rangeBinaryOperator_contains (fun h => hadd h.1) (fun h => hsub h.1) hl hr hv)
          ⟨fun h => absurd h hadd, fun h => absurd h hsub⟩
  · exact iff_of_true
      (fun l r v hl hr hv => rangeBinaryOperator_contains (fun h => hboth h.2) (fun h => hboth h.2) hl hr hv)
      (.inl (Bool.not_eq_true _ ▸ hboth))

/-! ## The unary operators -/

/-- When the range of a unary operator has every value: the least word, which negation keeps, is not in the range
of the operand, or is all of it. -/
def UnaryHolds (op : String) (have_ : Bool) (inner : Range) : Prop :=
  op = "-" → have_ = true → inner.Empty ∨ inner.low ≠ -2 ^ 63 ∨ ∀ m ∈ inner.max, m = BitVec.intMin 64

theorem toInt_intMin : (BitVec.intMin 64).toInt = -2 ^ 63 := by decide

theorem intMin_slt_iff : (BitVec.intMin 64).slt m = true ↔ m ≠ BitVec.intMin 64 := by
  rw [BitVec.slt_iff_toInt_lt, toInt_intMin, ne_eq, ← BitVec.toInt_inj, toInt_intMin]
  have := (i64_toInt m).1
  omega

theorem toInt_neg_of_ne (h : m ≠ BitVec.intMin 64) : (-m).toInt = -m.toInt :=
  BitVec.toInt_neg_of_ne_intMin h

/-- The range of a unary operator is right exactly under the condition of its operator. -/
theorem rangeOfUnary_iff (op : String) (have_ : Bool) (inner : Range) :
    (∀ v w, inner.Contains v → evalUnary op v = some w → (rangeOfUnary op have_ inner).Contains w) ↔
      UnaryHolds op have_ inner := by
  unfold UnaryHolds rangeOfUnary evalUnary
  -- `-` alone can fail: what `!` and the unknown range promise holds of every word
  by_cases hneg : op = "-"
  · simp only [hneg, if_true, some.injEq, forall_const]
    cases have_ with
    | false => simp [contains_unknown]
    | true =>
      simp only [if_true, forall_const]
      constructor
      -- were the smallest value inside, its negation, which wraps to itself, would be outside
      · intro h
        by_contra hcon
        obtain ⟨hempty, hcon⟩ := not_or.mp hcon
        obtain ⟨hlow, hmax⟩ := not_or.mp hcon
        rw [not_not] at hlow
        push Not at hmax
        obtain ⟨m, hm, hne⟩ := hmax
        obtain ⟨v, hv, hcontains⟩ := inner.exists_contains (n := -2 ^ 63) hlow.le
          (hlow ▸ not_lt.mp hempty)
        have hmin := (h v _ hcontains rfl).min_le (-m) (by
          simp only [mem_def.mp hm, bind_some, intMin_slt_iff.mpr hne, if_true, mem_def])
        have hv : v = BitVec.intMin 64 := BitVec.toInt_inj.mp (hv.trans toInt_intMin.symm)
        rw [toInt_neg_of_ne hne, hv, show (-BitVec.intMin 64).toInt = -2 ^ 63 by decide] at hmin
        have := m.toInt_lt
        omega
      · rintro h v w hv rfl
        refine ⟨fun b hb => ?_, fun b hb => ?_⟩
        · obtain ⟨m, hm, hb⟩ := bind_eq_some_iff.mp hb
          split at hb
          · rename_i hslt
            have hne := intMin_slt_iff.mp hslt
            have hvne : v ≠ BitVec.intMin 64 := by
              rintro rfl
              have hcontains := contains_iff.mp hv
              rcases h with hempty | hlow | hmax
              · exact not_contains_of_empty hempty hv
              · exact hlow (le_antisymm hcontains.1 inner.low_i64.1)
              · exact hne (hmax m hm)
            have hle := hv.le_max m hm
            rw [← some.inj hb, toInt_neg_of_ne hne, toInt_neg_of_ne hvne]
            omega
          · cases hb
        · obtain ⟨m, hm, hb⟩ := bind_eq_some_iff.mp hb
          split at hb
          · rename_i hslt
            have hne := intMin_slt_iff.mp hslt
            have hle := hv.min_le m hm
            have hvne : v ≠ BitVec.intMin 64 := by
              rintro rfl
              exact hne (BitVec.toInt_inj.mp (toInt_intMin ▸ le_antisymm hle (i64_toInt m).1))
            rw [← some.inj hb, toInt_neg_of_ne hne, toInt_neg_of_ne hvne]
            omega
          · cases hb
  · refine iff_of_true (fun v w _ hw => ?_) fun h => absurd h hneg
    rw [if_neg hneg] at hw ⊢
    split
    · rename_i hnot
      rw [if_pos hnot] at hw
      rw [← some.inj hw]
      split <;> exact contains_mk.mpr ⟨fun m hm => some.inj hm ▸ by decide,
        fun m hm => some.inj hm ▸ by decide⟩
    · exact contains_unknown _

/-! ## Constants -/

/-- The expression is built of known constants and refined variables by casts and negations: what can get a range. -/
def ConstantExpr.Known (symbols : String → ConstantSymbol) : ConstantExpr → Prop
  | .numberLiteral _ isFloat => isFloat = false
  | .identifier name => symbols name ≠ .unknown
  | .cast _ operand => operand.Known symbols
  | .unary op _ operand => op = "-" ∧ operand.Known symbols
  | .other => False

/-- Among the known operands no cast changes a value, and a negated one has one value, whose negation is one of its
type. -/
def ConstantExpr.Kept (symbols : String → ConstantSymbol) : ConstantExpr → Prop
  | .cast type operand =>
    operand.Kept symbols ∧ (operand.Known symbols →
      ∀ v w, operand.HasValue symbols v → type.convert v = some w → w = v)
  | .unary op type operand =>
    operand.Kept symbols ∧ (op = "-" → operand.Known symbols → ∀ v, operand.HasValue symbols v →
      (∀ v', operand.HasValue symbols v' → v' = v) ∧ ∀ w, type.convert (-v) = some w → w = -v)
  | .numberLiteral _ _ | .identifier _ | .other => True

section

variable {symbols : String → ConstantSymbol} {e : ConstantExpr} {depth : ℕ} {r : Range}

/-- Whether a conversion is defined depends on the type only. -/
theorem ValueType.convert_isSome {type : ValueType} {v w : BitVec 64} (h : type.convert v = some w)
    (v' : BitVec 64) : ∃ w', type.convert v' = some w' := by
  cases type with
  | int bits signed => cases signed <;> exact ⟨_, rfl⟩
  | bool => exact ⟨_, rfl⟩
  | address => exact ⟨_, rfl⟩
  | float => cases h

/-- The range of an expression: a literal or a name gives it, a cast passes it on, a negation turns its lower end. -/
inductive ConstantExpr.HasRange (symbols : String → ConstantSymbol) : ConstantExpr → Range → Prop
  | literal (value : BitVec 64) : HasRange symbols (.numberLiteral value false) (rangeExact value)
  | constant {name : String} {value : BitVec 64} (h : symbols name = .constant value) :
      HasRange symbols (.identifier name) (rangeExact value)
  | refined {name : String} {min max : BitVec 64} (h : symbols name = .refined min max) :
      HasRange symbols (.identifier name) ⟨some min, some max⟩
  | cast {type : ValueType} {operand : ConstantExpr} {r : Range} (h : HasRange symbols operand r) :
      HasRange symbols (.cast type operand) r
  | neg {type : ValueType} {operand : ConstantExpr} {min max : BitVec 64}
      (h : HasRange symbols operand ⟨some min, some max⟩) :
      HasRange symbols (.unary "-" type operand) (rangeExact (-min))

/-- What the code computes is the range of the expression. -/
theorem hasRange_of_constantRange (h : constantRange symbols depth e = some r) : e.HasRange symbols r := by
  induction e generalizing depth r with
  | numberLiteral value isFloat =>
    obtain ⟨-, h⟩ := ite_none_left_eq_some.mp h
    obtain ⟨hfloat, heq⟩ := ite_none_left_eq_some.mp h
    obtain rfl := Bool.not_eq_true _ ▸ hfloat
    exact some.inj heq ▸ .literal value
  | identifier name =>
    obtain ⟨-, h⟩ := ite_none_left_eq_some.mp h
    split at h
    · rename_i value hname
      exact some.inj h ▸ .constant hname
    · rename_i min max hname
      exact some.inj h ▸ .refined hname
    · cases h
  | cast type operand ih =>
    obtain ⟨-, h⟩ := ite_none_left_eq_some.mp h
    exact .cast (ih h)
  | unary op type operand ih =>
    obtain ⟨-, h⟩ := ite_none_left_eq_some.mp h
    obtain ⟨hop, hmatch⟩ := ite_none_left_eq_some.mp h
    obtain rfl := not_not.mp hop
    split at hmatch
    · rename_i min max hinner
      obtain ⟨-, heq⟩ := ite_none_left_eq_some.mp hmatch
      exact some.inj heq ▸ .neg (ih hinner)
    · cases hmatch
  | other =>
    obtain ⟨-, h⟩ := ite_none_left_eq_some.mp h
    cases h

/-- Only known expressions get a range. -/
theorem ConstantExpr.HasRange.known (h : e.HasRange symbols r) : e.Known symbols := by
  induction h with
  | literal value => rfl
  | constant h | refined h =>
    intro hunknown
    rw [hunknown] at h
    cases h
  | cast _ ih => exact ih
  | neg _ ih => exact ⟨rfl, ih⟩

/-- The range of a kept expression bounds its values, and its lower end is one of them. -/
theorem ConstantExpr.HasRange.bounds (hr : e.HasRange symbols r) (hkept : e.Kept symbols) {v : BitVec 64}
    (hv : e.HasValue symbols v) :
    r.Contains v ∧ ∃ min max, r = ⟨some min, some max⟩ ∧ e.HasValue symbols min := by
  induction hr generalizing v with
  | literal value =>
    cases hv
    exact ⟨contains_exact.mpr rfl, value, value, rfl, .literal value⟩
  | @constant name value h =>
    obtain rfl : v = value := by
      cases hv with
      | constant h' => simpa [h, eq_comm] using h'
      | refined h' => simp [h] at h'
      | unknown h' => simp [h] at h'
    exact ⟨contains_exact.mpr rfl, v, v, rfl, .constant h⟩
  | @refined name min max h =>
    have hbounds : min.toInt ≤ v.toInt ∧ v.toInt ≤ max.toInt := by
      cases hv with
      | constant h' => simp [h] at h'
      | refined h' hmin hmax =>
        obtain ⟨rfl, rfl⟩ : min = _ ∧ max = _ := by simpa [h] using h'
        exact ⟨hmin, hmax⟩
      | unknown h' => simp [h] at h'
    exact ⟨contains_mk.mpr ⟨fun _ hm => some.inj hm ▸ hbounds.1, fun _ hm => some.inj hm ▸ hbounds.2⟩,
      min, max, rfl, .refined h le_rfl (hbounds.1.trans hbounds.2)⟩
  | cast hoperand ih =>
    obtain ⟨hinner, hcast⟩ := hkept
    have hcast := hcast hoperand.known
    cases hv with
    | cast h hw =>
      obtain ⟨hcontains, min, max, hr, hmin⟩ := ih hinner h
      -- the lower end is a value of the operand, so the cast keeps it too
      obtain ⟨w', hw'⟩ := ValueType.convert_isSome hw min
      rw [hcast _ _ h hw]
      exact ⟨hcontains, min, max, hr, .cast hmin (hcast _ _ hmin hw' ▸ hw')⟩
  | @neg type operand min max hoperand ih =>
    obtain ⟨hinner, hneg⟩ := hkept
    cases hv with
    | unary h hu hw =>
      obtain ⟨-, min', max', hr, hmin⟩ := ih hinner h
      obtain ⟨rfl, -⟩ : min = min' ∧ max = max' := by simpa using hr
      -- the operand has one value, and the type keeps its negation
      obtain ⟨hone, htype⟩ := hneg rfl hoperand.known min hmin
      rw [hone _ h, evalUnary, if_pos rfl, some.injEq] at hu
      subst hu
      have hkeep := htype _ hw
      rw [hkeep] at hw ⊢
      refine ⟨contains_exact.mpr rfl, -min, -min, rfl, .unary hmin ?_ hw⟩
      rw [evalUnary, if_pos rfl]

end

/-! ## The whole -/

/-- Where the checker's interval arithmetic has every value, and where it has not. -/
theorem rangeArithmetic_iff (op : String) (L R : Range) (haveL haveR : Bool) (unop : String) (have_ : Bool)
    (inner : Range) (v : BitVec 64) (k : ℕ) (symbols : String → ConstantSymbol) (e : ConstantExpr) (depth : ℕ) :
    ((∀ l r v, L.Contains l → R.Contains r → evalBinary op l r = some v →
        (rangeBinaryOperator op L R haveL haveR).Contains v) ↔ BinaryHolds op L R haveL haveR) ∧
      ((∀ v w, inner.Contains v → evalUnary unop v = some w → (rangeOfUnary unop have_ inner).Contains w) ↔
        UnaryHolds unop have_ inner) ∧
      (k < 63 → (shiftRightFloor v k).toInt = v.toInt / 2 ^ k) ∧
      (e.Kept symbols → ∀ r v, constantRange symbols depth e = some r → e.HasValue symbols v → r.Contains v) :=
  ⟨rangeBinaryOperator_iff op L R haveL haveR, rangeOfUnary_iff unop have_ inner, shiftRightFloor_toInt v,
    fun hkept _ _ hrange hv => ((hasRange_of_constantRange hrange).bounds hkept hv).1⟩

/-- The sum of two indexes below a thousand, and of a constant under a cast that keeps it. -/
theorem rangeArithmetic_index :
    (∀ l r v, Range.Contains ⟨some 0, some 999⟩ l → Range.Contains ⟨some 0, some 999⟩ r →
      evalBinary "+" l r = some v → Range.Contains ⟨some 0, some 1998⟩ v) ∧
      (shiftRightFloor (-7) 1).toInt = -4 ∧
      ∀ v, ConstantExpr.HasValue (fun _ => .unknown) (.cast (.int 8 false) (.numberLiteral 200 false)) v →
        Range.Contains ⟨some 200, some 200⟩ v := by
  obtain ⟨hsum, -, hshift, hconstant⟩ := rangeArithmetic_iff "+" ⟨some 0, some 999⟩ ⟨some 0, some 999⟩ true true
    "-" true rangeUnknown (-7) 1 (fun _ => .unknown) (.cast (.int 8 false) (.numberLiteral 200 false)) 0
  refine ⟨hsum.mpr (.inr (.inr (.inr ⟨fun _ => ?_, fun h => absurd h (by decide)⟩))), hshift (by norm_num),
    fun v => hconstant ⟨trivial, fun _ v w hv hw => ?_⟩ _ v rfl⟩
  · exact ⟨fun _ _ => .inl (by decide), fun _ _ => .inl (by decide)⟩
  · cases hv
    exact (Option.some.inj hw).symm.trans (by decide)

/-- A sum that overflows upwards is below the lower bound that was kept; so is the negation of the least word;
and a cast to a byte is taken for its operand. -/
theorem rangeArithmetic_misses :
    (¬ ∀ (op : String) (L R : Range) (haveL haveR : Bool) (l r v : BitVec 64), L.Contains l → R.Contains r →
      evalBinary op l r = some v → (rangeBinaryOperator op L R haveL haveR).Contains v) ∧
      (¬ ∀ (op : String) (have_ : Bool) (inner : Range) (v w : BitVec 64), inner.Contains v →
        evalUnary op v = some w → (rangeOfUnary op have_ inner).Contains w) ∧
      ¬ ∀ (symbols : String → ConstantSymbol) (e : ConstantExpr) (r : Range) (v : BitVec 64),
        constantRange symbols 0 e = some r → e.HasValue symbols v → r.Contains v := by
  refine ⟨fun h => ?_, fun h => ?_, fun h => ?_⟩
  · have hmin := (h "+" ⟨some 0, none⟩ ⟨some 0, none⟩ true true (BitVec.intMax 64) 1 (BitVec.intMin 64)
      ⟨fun m hm => Option.some.inj hm ▸ by decide, fun m hm => nomatch hm⟩
      ⟨fun m hm => Option.some.inj hm ▸ by decide, fun m hm => nomatch hm⟩ (by decide)).min_le 0 (by decide)
    exact absurd hmin (by decide)
  · have hmin := (h "-" true ⟨none, some 5⟩ (BitVec.intMin 64) (BitVec.intMin 64)
      ⟨fun m hm => (nomatch hm), fun m hm => Option.some.inj hm ▸ by decide⟩ (by decide)).min_le (-5) (by decide)
    exact absurd hmin (by decide)
  · have hmin := (h (fun _ => .unknown) (.cast (.int 8 false) (.numberLiteral 300 false)) (rangeExact 300) 44 rfl
      (.cast (.literal 300) (by decide))).min_le 300 rfl
    exact absurd hmin (by decide)

end Mettle.Semantic

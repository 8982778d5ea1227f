import Mettle.Runtime.Parallel
import Mettle.Lib.Blocks

/-!
# The ranges of a parallel range

The pool's model computes on exact integers. Here the computations of `mtp_dispatch`, `mtp_plan` and `mtp_work` are
followed with the bounds of `long long`, where a signed operation that leaves them has no result, to see for which
ranges they never do. Then the chunks cut the range; each of them is taken once, as the pool's transition system
shows.
-/

namespace Mettle.Runtime.Parallel

open Mettle.Lib List Option

variable {F X : Type}

/-- The numbers of a `long long`. -/
def IsLong (x : ℤ) : Prop := -2 ^ 63 ≤ x ∧ x < 2 ^ 63

instance (x : ℤ) : Decidable (IsLong x) := inferInstanceAs (Decidable (_ ∧ _))

/-- The result of a signed operation, which overflow leaves undefined. -/
def long (x : ℤ) : Option ℤ := if IsLong x then some x else none

variable {x total minChunk : ℤ} {plan : ℕ × ℤ} {chunk : ℕ} {r : ℤ × ℤ}

theorem long_eq_some {y : ℤ} : long x = some y ↔ IsLong x ∧ x = y := by
  rw [long, ite_none_right_eq_some, some_inj]

/-! ## The computations -/

/-- The number of chunks that `mtp_plan` aims at. -/
def planCount (threads : ℕ) (total minChunk : ℤ) : ℤ :=
  let limit : ℤ := threads * 4
  let count := total / (if minChunk < 1 then 1 else minChunk)
  if count > limit then limit else count

/-- `mtp_plan`. The quotients are of numbers that are not negative. -/
def planLong (threads : ℕ) (total minChunk : ℤ) : Option (ℕ × ℤ) := do
  let count := planCount threads total minChunk
  if count < 2 then some (1, total)
  else do
    let sum ← long (total + count)
    let sum ← long (sum - 1)
    let span := sum / count
    let sum ← long (total + span)
    let sum ← long (sum - 1)
    some ((sum / span).toNat % 2 ^ 32, span)

/-- The range of a chunk in `mtp_work`. -/
def chunkLong (lo hi span : ℤ) (chunk : ℕ) : Option (ℤ × ℤ) := do
  let offset ← long (span * chunk)
  let start ← long (lo + offset)
  let stop ← long (start + span)
  some (start, if stop < hi then stop else hi)

/-- The ranges on which `mettle_parallel_range` calls the body, given whether the pool can be acquired. -/
def rangeCalls (threads : ℕ) (acquired : Bool) (lo hi minChunk : ℤ) : Option (List (ℤ × ℤ)) := do
  let total ← long (hi - lo)
  if total ≤ 0 then some []
  else do
    let (count, span) ← planLong threads total minChunk
    if count < 2 ∨ acquired = false then some [(lo, hi)]
    else (List.range count).mapM (chunkLong lo hi span)

/-! ## Agreement with the pool's arithmetic -/

/-- A plan whose sums do not overflow is the plan over the integers. -/
theorem planLong_eq {threads : ℕ} (h : planLong threads total minChunk = some plan) :
    mtpPlan threads total minChunk = plan := by
  have hcount : planCount threads total minChunk =
      min (total / (if minChunk < 1 then 1 else minChunk)) (threads * 4) := by
    rw [planCount]
    split <;> omega
  rw [planLong, hcount] at h
  rw [mtpPlan]
  generalize min (total / (if minChunk < 1 then 1 else minChunk)) (threads * 4) = count at h ⊢
  by_cases hsmall : count < 2
  · rw [if_pos hsmall] at h ⊢
    exact some.inj h
  · rw [if_neg hsmall] at h ⊢
    simp only [bind_eq_bind, bind_eq_some_iff, long_eq_some] at h
    obtain ⟨_, ⟨_, rfl⟩, _, ⟨_, rfl⟩, _, ⟨_, rfl⟩, _, ⟨_, rfl⟩, hplan⟩ := h
    exact some.inj hplan

/-- So is a chunk. -/
theorem chunkLong_eq {lo hi span : ℤ} (h : chunkLong lo hi span chunk = some r) : r = piece lo hi span chunk := by
  simp only [chunkLong, bind_eq_bind, bind_eq_some_iff, long_eq_some] at h
  obtain ⟨_, ⟨_, rfl⟩, _, ⟨_, rfl⟩, _, ⟨_, rfl⟩, hr⟩ := h
  rw [← some.inj hr, piece]
  congr 1
  split <;> omega

/-- The pool calls the body on the range computed here. -/
theorem chunkLong_call {job : MtpJob F X} {slot : ℕ} (h : chunkLong job.lo job.hi job.span chunk = some r) :
    job.chunk chunk slot = mtpRun job r.1 r.2 slot := by
  rw [chunkLong_eq h, MtpJob.chunk, piece]
  congr 1
  split <;> omega

/-! ## The exact bounds -/

/-- The computations stay in the numbers of a `long long`: the length of the range does; when the range is long
enough for two chunks, so do its sums with the number of chunks aimed at and with their length; and when the pool
can be acquired, so does the end of the last chunk, before it is cut off. -/
def RangeFits (threads : ℕ) (acquired : Bool) (lo hi minChunk : ℤ) : Prop :=
  let total := hi - lo
  let count := min (total / max minChunk 1) (4 * threads)
  let span := (total + count - 1) / count
  IsLong total ∧ (2 ≤ count → total + count < 2 ^ 63 ∧ total + span < 2 ^ 63 ∧
    (acquired = true → lo + span * ((total + span - 1) / span) < 2 ^ 63))

theorem ite_lt_one (minChunk : ℤ) : (if minChunk < 1 then 1 else minChunk) = max minChunk 1 := by
  split <;> omega

/-- How many chunks a plan has. -/
theorem planCount_eq (threads : ℕ) (total minChunk : ℤ) :
    planCount threads total minChunk = min (total / max minChunk 1) (4 * threads) := by
  rw [planCount, ite_lt_one]
  split <;> omega

/-- Rounding a quotient up. -/
theorem ceil_bounds {a b : ℤ} (hb : 0 < b) : a ≤ b * ((a + b - 1) / b) ∧ b * ((a + b - 1) / b) < a + b := by
  have hle := Int.mul_ediv_self_le (x := a + b - 1) hb.ne'
  have hlt := Int.lt_mul_ediv_self_add (x := a + b - 1) hb
  constructor <;> omega

/-- What holds of the number of chunks aimed at, the length of a chunk and the number of chunks there are. -/
structure Planned (threads : ℕ) (total count span n : ℤ) : Prop where
  count_le : count ≤ total
  span_pos : 0 < span
  span_lt : span < total
  cover : total ≤ span * n
  last : span * n < total + span
  n_ge : 2 ≤ n
  n_le : n ≤ 4 * threads

/-- What holds of the plan of a range that is split. -/
theorem planned {threads : ℕ} (htotal : 0 < total) (hcount : 2 ≤ min (total / max minChunk 1) (4 * threads : ℤ)) :
    Planned threads total (min (total / max minChunk 1) (4 * threads))
      ((total + min (total / max minChunk 1) (4 * threads) - 1) / min (total / max minChunk 1) (4 * threads))
      ((total + (total + min (total / max minChunk 1) (4 * threads) - 1) / min (total / max minChunk 1) (4 * threads) - 1)
        / ((total + min (total / max minChunk 1) (4 * threads) - 1) / min (total / max minChunk 1) (4 * threads))) := by
  have hthreads : min (total / max minChunk 1) (4 * threads : ℤ) ≤ 4 * threads := min_le_right _ _
  have hle : min (total / max minChunk 1) (4 * threads : ℤ) ≤ total :=
    (min_le_left _ _).trans (Int.ediv_le_self _ htotal.le)
  generalize min (total / max minChunk 1) (4 * threads : ℤ) = count at hcount hthreads hle ⊢
  obtain ⟨hcover, hlast⟩ := ceil_bounds (a := total) (b := count) (by omega)
  generalize (total + count - 1) / count = span at hcover hlast ⊢
  have hspan : 0 < span := by
    by_contra hneg
    have hprod : count * span ≤ 0 := Int.mul_nonpos_of_nonneg_of_nonpos (by omega) (by omega)
    omega
  obtain ⟨hcover', hlast'⟩ := ceil_bounds (a := total) (b := span) hspan
  generalize (total + span - 1) / span = n at hcover' hlast' ⊢
  have hspanlt : span < total := by
    by_contra hge
    nlinarith
  refine ⟨hle, hspan, hspanlt, hcover', hlast', ?_, ?_⟩
  · by_contra hsmall
    nlinarith
  · by_contra hlarge
    nlinarith

/-- The plan of a range that is cut into chunks. -/
theorem mtpPlan_planned {threads : ℕ} (hthreads : threads ≤ maxThreads) (htotal : 0 < total)
    (hchunks : 2 ≤ (mtpPlan threads total minChunk).1) :
    ∃ count, Planned threads total count (mtpPlan threads total minChunk).2 (mtpPlan threads total minChunk).1 := by
  unfold mtpPlan at hchunks ⊢
  simp only [ite_lt_one, mul_comm (threads : ℤ)] at hchunks ⊢
  split at hchunks
  · cases hchunks with
    | step h => cases h
  · rename_i hcount
    have hplan := planned htotal (not_lt.mp hcount)
    rw [if_neg hcount]
    have hle := hplan.n_le
    have hge := hplan.n_ge
    rw [maxThreads] at hthreads
    rw [Nat.mod_eq_of_lt (by omega), Int.toNat_of_nonneg (by omega)]
    exact ⟨_, hplan⟩

/-- A sum that is not negative fits below `2 ^ 63`. -/
theorem isLong_iff_lt (h : 0 ≤ x) : IsLong x ↔ x < 2 ^ 63 := by
  rw [IsLong]
  omega

/-- The plan of a range long enough for two chunks. -/
theorem planLong_eq_some {threads : ℕ} {count span : ℤ} (htotal : 0 < total)
    (hcount : planCount threads total minChunk = count) (hlarge : 2 ≤ count)
    (hspan : (total + count - 1) / count = span) (hpos : 0 < span) :
    planLong threads total minChunk = some plan ↔
      total + count < 2 ^ 63 ∧ total + span < 2 ^ 63 ∧ ((total + span - 1) / span).toNat % 2 ^ 32 = plan.1 ∧
        span = plan.2 := by
  rw [planLong, hcount, if_neg (by omega)]
  simp only [bind_eq_bind, bind_eq_some_iff, long_eq_some]
  constructor
  · rintro ⟨_, ⟨hsum, rfl⟩, _, ⟨_, rfl⟩, _, ⟨hsum', rfl⟩, _, ⟨_, rfl⟩, hplan⟩
    rw [hspan] at hsum' hplan
    cases hplan
    exact ⟨hsum.2, hsum'.2, rfl, rfl⟩
  · rintro ⟨hsum, hsum', hfst, hsnd⟩
    refine ⟨_, ⟨(isLong_iff_lt (by omega)).mpr hsum, rfl⟩, _, ⟨(isLong_iff_lt (by omega)).mpr (by omega), rfl⟩, _, ⟨?_, rfl⟩,
      _, ⟨?_, rfl⟩, ?_⟩
    · rw [hspan]
      exact (isLong_iff_lt (by omega)).mpr hsum'
    · rw [hspan]
      exact (isLong_iff_lt (by omega)).mpr (by omega)
    · rw [hspan, hfst, hsnd]

/-- A loop whose rounds give one result or none. -/
theorem mapM_eq_some_map {α β : Type} {f : α → Option β} {g : α → β} (hg : ∀ a b, f a = some b → b = g a) {l : List α}
    {r : List β} : l.mapM f = some r ↔ (∀ a ∈ l, ∃ b, f a = some b) ∧ l.map g = r := by
  induction l generalizing r with
  | nil => simp
  | cons a l ih =>
    simp only [mapM_cons, bind_eq_bind, bind_eq_some_iff, Option.pure_def, some_inj, ih,
      forall_mem_cons, map_cons]
    constructor
    · rintro ⟨b, hb, _, ⟨hrest, rfl⟩, rfl⟩
      rw [hg a b hb]
      exact ⟨⟨⟨b, hb⟩, hrest⟩, rfl⟩
    · rintro ⟨⟨⟨b, hb⟩, hrest⟩, rfl⟩
      rw [← hg a b hb]
      exact ⟨b, hb, _, ⟨hrest, rfl⟩, rfl⟩

section

variable {threads : ℕ} {lo hi span count n : ℤ} {ranges : List (ℤ × ℤ)}

/-- The chunks are computed when the end of the last one is. -/
theorem chunks_eq_some (hlo : IsLong lo) (hlong : IsLong (hi - lo)) (hplan : Planned threads (hi - lo) count span n) :
    (range n.toNat).mapM (chunkLong lo hi span) = some ranges ↔
      lo + span * n < 2 ^ 63 ∧ (range n.toNat).map (piece lo hi span) = ranges := by
  obtain ⟨_, hpos, _, hcover, hlast, hn, _⟩ := hplan
  rw [mapM_eq_some_map (fun _ _ h => chunkLong_eq h)]
  apply and_congr_left
  intro _
  have hchunk (k : ℕ) : (∃ r, chunkLong lo hi span k = some r) ↔
      IsLong (span * k) ∧ IsLong (lo + span * k) ∧ IsLong (lo + span * k + span) := by
    simp only [chunkLong, bind_eq_bind, bind_eq_some_iff, long_eq_some]
    constructor
    · rintro ⟨_, _, ⟨h₁, rfl⟩, _, ⟨h₂, rfl⟩, _, ⟨h₃, rfl⟩, _⟩
      exact ⟨h₁, h₂, h₃⟩
    · rintro ⟨h₁, h₂, h₃⟩
      exact ⟨_, _, ⟨h₁, rfl⟩, _, ⟨h₂, rfl⟩, _, ⟨h₃, rfl⟩, rfl⟩
  constructor
  · intro h
    have hmem : (n - 1).toNat ∈ range n.toNat := mem_range.mpr (by omega)
    obtain ⟨_, _, hend⟩ := (hchunk _).mp (h _ hmem)
    rw [show ((n - 1).toNat : ℤ) = n - 1 by omega, mul_sub, mul_one] at hend
    have hlt := hend.2
    omega
  · intro hend k hk
    have hkn : (k : ℤ) + 1 ≤ n := by
      have hlt := mem_range.mp hk
      omega
    have hle : span * (k + 1 : ℤ) ≤ span * n := Int.mul_le_mul_of_nonneg_left hkn hpos.le
    have hnonneg : 0 ≤ span * (k : ℤ) := Int.mul_nonneg hpos.le (Int.natCast_nonneg k)
    rw [mul_add, mul_one] at hle
    rw [hchunk]
    unfold IsLong at hlo hlong ⊢
    omega

variable {acquired : Bool} {minChunk : ℤ}

/-- A range long enough for two chunks. -/
theorem rangeCalls_cuts_iff_of_large (hthreads : threads ≤ maxThreads) (hlo : IsLong lo) (hlong : IsLong (hi - lo))
    (htotal : 0 < hi - lo) (hcount : planCount threads (hi - lo) minChunk = count) (hlarge : 2 ≤ count)
    (hspan : (hi - lo + count - 1) / count = span) (hn : (hi - lo + span - 1) / span = n)
    (hplan : Planned threads (hi - lo) count span n) :
    (∃ ranges, rangeCalls threads acquired lo hi minChunk = some ranges ∧ Cuts lo hi ranges) ↔
      hi - lo + count < 2 ^ 63 ∧ hi - lo + span < 2 ^ 63 ∧ (acquired = true → lo + span * n < 2 ^ 63) := by
  have hge := hplan.n_ge
  have hmod : n.toNat % 2 ^ 32 = n.toNat := by
    apply Nat.mod_eq_of_lt
    have hle := hplan.n_le
    rw [maxThreads] at hthreads
    omega
  -- the calls are made only if the two sums of the plan do not overflow
  have hiff (plan : ℕ × ℤ) : planLong threads (hi - lo) minChunk = some plan ↔ _ :=
    planLong_eq_some htotal hcount hlarge hspan hplan.span_pos
  rw [hn, hmod] at hiff
  simp only [rangeCalls, bind_eq_bind, bind_eq_some_iff, long_eq_some]
  constructor
  · rintro ⟨ranges, ⟨_, ⟨_, rfl⟩, hcalls⟩, _⟩
    rw [if_neg (by omega), bind_eq_some_iff] at hcalls
    obtain ⟨⟨chunks, length⟩, hplanned, hcalls⟩ := hcalls
    obtain ⟨hsum, hsum', rfl, rfl⟩ := (hiff _).mp hplanned
    refine ⟨hsum, hsum', ?_⟩
    rintro rfl
    rw [if_neg (by rw [not_or]; exact ⟨by omega, by decide⟩)] at hcalls
    exact ((chunks_eq_some hlo hlong hplan).mp hcalls).1
  · rintro ⟨hsum, hsum', hend⟩
    have hplanned := (hiff (n.toNat, span)).mpr ⟨hsum, hsum', rfl, rfl⟩
    cases hacquired : acquired with
    | false =>
      refine ⟨[(lo, hi)], ⟨_, ⟨hlong, rfl⟩, ?_⟩, Cuts.single (by omega)⟩
      rw [if_neg (by omega), hplanned, bind_some, if_pos (.inr rfl)]
    | true =>
      have hchunks := (chunks_eq_some hlo hlong hplan).mpr ⟨hend hacquired, rfl⟩
      have hnat : (n.toNat : ℤ) = n := by omega
      refine ⟨(range n.toNat).map (piece lo hi span), ⟨_, ⟨hlong, rfl⟩, ?_⟩, cuts_pieces hplan.span_pos ?_ ?_⟩
      · rw [if_neg (by omega), hplanned, bind_some, if_neg (by rw [not_or]; exact ⟨by omega, by decide⟩)]
        exact hchunks
      · rw [hnat]
        exact hplan.last
      · rw [hnat]
        exact hplan.cover

/-- A range without room for two chunks, or without anything in it. -/
theorem rangeCalls_cuts_of_small (hlong : IsLong (hi - lo)) (hsmall : planCount threads (hi - lo) minChunk < 2) :
    ∃ ranges, rangeCalls threads acquired lo hi minChunk = some ranges ∧ Cuts lo hi ranges := by
  simp only [rangeCalls, bind_eq_bind, bind_eq_some_iff, long_eq_some]
  by_cases htotal : hi - lo ≤ 0
  · refine ⟨[], ⟨_, ⟨hlong, rfl⟩, ?_⟩, Cuts.nil (by omega)⟩
    rw [if_pos htotal]
  · have hplan : planLong threads (hi - lo) minChunk = some (1, hi - lo) := by
      rw [planLong, if_pos hsmall]
    refine ⟨[(lo, hi)], ⟨_, ⟨hlong, rfl⟩, ?_⟩, Cuts.single (by omega)⟩
    rw [if_neg htotal, hplan]
    rfl

end

/-- For any two ends, any least chunk and any number of threads: the computations of `mettle_parallel_range` do not
overflow and the ranges of its calls cut the range just when the bounds hold. -/
theorem rangeCalls_cuts_iff (requested hardware : ℕ) (acquired : Bool) (lo hi minChunk : BitVec 64) :
    (∃ ranges, rangeCalls (mtpThreads requested hardware) acquired lo.toInt hi.toInt minChunk.toInt = some ranges ∧
      Cuts lo.toInt hi.toInt ranges) ↔
    RangeFits (mtpThreads requested hardware) acquired lo.toInt hi.toInt minChunk.toInt := by
  have hthreads : mtpThreads requested hardware ≤ maxThreads := min_le_right _ _
  have hlo : IsLong lo.toInt := ⟨BitVec.le_toInt lo, BitVec.toInt_lt⟩
  generalize mtpThreads requested hardware = threads at hthreads ⊢
  generalize lo.toInt = lo at hlo ⊢
  generalize hi.toInt = hi
  generalize minChunk.toInt = minChunk
  rw [RangeFits]
  by_cases hlong : IsLong (hi - lo)
  -- two chunks or more are planned, one is called at once
  · by_cases hlarge : 2 ≤ min ((hi - lo) / max minChunk 1) (4 * threads : ℤ)
    · have htotal : 0 < hi - lo := by
        by_contra hneg
        have hquot : (hi - lo) / max minChunk 1 ≤ 0 := Int.ediv_le_of_le_mul (by omega) (by omega)
        omega
      rw [rangeCalls_cuts_iff_of_large hthreads hlo hlong htotal (planCount_eq _ _ _) hlarge rfl rfl
        (planned htotal hlarge)]
      exact ⟨fun h => ⟨hlong, fun _ => h⟩, fun h => h.2 hlarge⟩
    · constructor
      · intro _
        exact ⟨hlong, fun hlarge' => absurd hlarge' hlarge⟩
      · intro _
        apply rangeCalls_cuts_of_small hlong
        rw [planCount_eq]
        omega
  · have hnone : rangeCalls threads acquired lo hi minChunk = none := by
      rw [rangeCalls, long, if_neg hlong]
      rfl
    rw [hnone]
    constructor
    · rintro ⟨_, ⟨⟩, _⟩
    · rintro ⟨h, _⟩
      exact absurd h hlong

/-- From zero to the last number of a `long long`, the sum with the number of chunks overflows. -/
theorem rangeCalls_overflows :
    ¬ ∃ ranges, rangeCalls (mtpThreads 2 1) true (0 : BitVec 64).toInt (BitVec.intMax 64).toInt (1 : BitVec 64).toInt =
      some ranges ∧ Cuts (0 : BitVec 64).toInt (BitVec.intMax 64).toInt ranges := by
  rintro ⟨ranges, hcalls, _⟩
  have hnone : rangeCalls (mtpThreads 2 1) true (0 : BitVec 64).toInt (BitVec.intMax 64).toInt (1 : BitVec 64).toInt =
      none := by decide
  rw [hnone] at hcalls
  cases hcalls

end Mettle.Runtime.Parallel

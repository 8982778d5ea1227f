import Mettle.Runtime.Runs

/-!
# One check in front of a loop

`mettle_safety_check_affine` stands for the checks of all accesses `offset + i * step` of a counted loop.
Its length argument comes from `mettle_safety_loop_length`, which saturates where the span of the loop does
not fit in 64 bits. No region is as long as the saturated span, so the check passes exactly when every
access of the loop would (`affine_ok_iff`), and a failure names the first access that does not.
-/

namespace Mettle.Runtime

/-- `INT64_MAX`. -/
def int64Max : BitVec 64 := 0x7fffffffffffffff#64

/-- `mettle_safety_loop_length`. -/
def mettleSafetyLoopLength (bound firstBound counterStep byteStep accessSize : BitVec 64) : BitVec 64 :=
  if bound.toInt < firstBound.toInt then 0
  else if counterStep.toInt ≤ 0 ∨ byteStep.toInt < 0 ∨ accessSize.toInt ≤ 0 then int64Max
  else
    let rounds := (bound - firstBound) / counterStep
    let room := int64Max - accessSize
    if byteStep ≠ 0 ∧ room / byteStep < rounds then int64Max else rounds * byteStep + accessSize

/-! ## The span of a loop -/

theorem int64Max_toNat : int64Max.toNat = 2 ^ 63 - 1 := by decide

/-- A word that is not negative reads the same signed and unsigned. -/
theorem toInt_of_nonneg {x : BitVec 64} (h : 0 ≤ x.toInt) : x.toInt = x.toNat ∧ x.toNat < 2 ^ 63 := by
  rcases Registry.toInt_cases x with hx | hx
  · exact hx
  · omega

/-- The number of the last access of a loop. -/
def lastRound (bound firstBound counterStep : BitVec 64) : ℕ :=
  (bound.toInt - firstBound.toInt).toNat / counterStep.toNat

/-- The rounds of the loop are those below its bound. -/
theorem le_lastRound {bound firstBound counterStep : BitVec 64} (hbound : firstBound.toInt ≤ bound.toInt)
    (hcounter : 0 < counterStep.toInt) (i : ℕ) :
    i ≤ lastRound bound firstBound counterStep ↔
      firstBound.toInt + i * counterStep.toInt ≤ bound.toInt := by
  obtain ⟨hstep, -⟩ := toInt_of_nonneg hcounter.le
  rw [hstep] at hcounter ⊢
  rw [lastRound, Nat.le_div_iff_mul_le (by omega), ← Int.ofNat_le]
  omega

/-- The length is the span from the first byte of the first access to the last byte of the last. -/
theorem loopLength_toNat {bound firstBound counterStep byteStep width : BitVec 64}
    (hbound : firstBound.toInt ≤ bound.toInt) (hcounter : 0 < counterStep.toInt) (hstep : 0 ≤ byteStep.toInt)
    (hwidth : 0 < width.toInt) :
    (mettleSafetyLoopLength bound firstBound counterStep byteStep width).toNat =
      min (lastRound bound firstBound counterStep * byteStep.toNat + width.toNat) (2 ^ 63 - 1) := by
  obtain ⟨hwidth', hwidthlt⟩ := toInt_of_nonneg hwidth.le
  have hrounds : ((bound - firstBound) / counterStep).toNat = lastRound bound firstBound counterStep := by
    rw [BitVec.toNat_udiv, lastRound, BitVec.toNat_sub]
    congr 1
    rcases Registry.toInt_cases bound with hb | hb <;>
      rcases Registry.toInt_cases firstBound with hf | hf <;> omega
  have hroom : (int64Max - width).toNat = 2 ^ 63 - 1 - width.toNat := by
    rw [BitVec.toNat_sub, int64Max_toNat]
    omega
  rw [mettleSafetyLoopLength, if_neg (by omega), if_neg (by omega)]
  dsimp only
  -- the length is cut at the largest offset, or is the exact product
  split
  · rename_i hsat
    obtain ⟨hne, hlt⟩ := hsat
    have hpos : 0 < byteStep.toNat := by
      rw [Nat.pos_iff_ne_zero]
      exact fun h => hne (BitVec.eq_of_toNat_eq h)
    rw [BitVec.lt_def, BitVec.toNat_udiv, hroom, hrounds, Nat.div_lt_iff_lt_mul hpos] at hlt
    rw [int64Max_toNat]
    omega
  · rename_i hfit
    have hle : lastRound bound firstBound counterStep * byteStep.toNat ≤ 2 ^ 63 - 1 - width.toNat := by
      by_cases hzero : byteStep = 0
      · simp [hzero]
      · have hpos : 0 < byteStep.toNat := by
          rw [Nat.pos_iff_ne_zero]
          exact fun h => hzero (BitVec.eq_of_toNat_eq h)
        rw [not_and, BitVec.lt_def, BitVec.toNat_udiv, hroom, hrounds, Nat.div_lt_iff_lt_mul hpos] at hfit
        exact not_lt.mp (hfit hzero)
    rw [BitVec.toNat_add, BitVec.toNat_mul, hrounds]
    omega

/-! ## The checks -/

namespace Registry

/-- The registry as a thread inside so many allocators sees it. -/
def atDepth (s : Registry) (depth : ℕ) : Registry := { s with allocatorDepth := depth }

/-- The test of an access against the region of an identity. -/
def admits (region : SafetyRegion) (base : ℕ) (offset : BitVec 64) (width : ℕ) : Bool :=
  let address := checkedAddress base offset
  base ≠ 0 ∧ ¬ wrapped base offset ∧ region.state = .live ∧ region.start ≤ address ∧
    width ≤ region.size ∧ address - region.start ≤ region.size - width

/-- `mettle_safety_check_identity`. -/
def mettleSafetyCheckIdentity (s : Registry) (base : ℕ) (offset size : BitVec 64) (line identity : ℕ) :
    Except Trap Unit :=
  if identity = 0 then
    if size.toInt ≤ 0 ∨ s.allocatorDepth ≠ 0 then .ok ()
    else
      .error (.report ⟨if base ≠ 0 then "memory access has no tracked allocation identity"
        else "null pointer dereference", line, offset, size, 0, false⟩)
  else if size.toInt ≤ 0 then .ok ()
  else
    let region := s.safetyIdentitySnapshot identity
    if admits region base offset size.toNat then .ok ()
    else s.safetyCheckFailed base offset size line (some region)

/-- The offset that a failed `mettle_safety_check_affine` reports. -/
def affineOffset (region : SafetyRegion) (base : ℕ) (offset width step : BitVec 64) : BitVec 64 :=
  if admits region base offset width.toNat then
    let room := region.size - width.toNat - (checkedAddress base offset - region.start)
    let rounds := (room / step.toNat + 1) % 2 ^ 64
    let limit := int64Max - offset
    if rounds ≤ limit.toNat / step.toNat then offset + rounds * step else int64Max
  else offset

/-- `mettle_safety_check_affine`. -/
def mettleSafetyCheckAffine (s : Registry) (base : ℕ) (offset length : BitVec 64) (line identity : ℕ)
    (width step : BitVec 64) : Except Trap Unit :=
  if length.toInt ≤ 0 then .ok ()
  else if identity = 0 ∨ width.toInt ≤ 0 ∨ step.toInt ≤ 0 then
    s.mettleSafetyCheckIdentity base offset width line identity
  else
    let region := s.safetyIdentitySnapshot identity
    if admits region base offset length.toNat then .ok ()
    else s.safetyCheckFailed base (affineOffset region base offset width step) width line (some region)

/-- The check of an access whose offset is any integer. -/
def ExactCheck (s : Registry) (base : ℕ) (offset width : ℤ) (identity : ℕ) : Prop :=
  s.allocatorDepth ≠ 0 ∨
    identity ≠ 0 ∧ base ≠ 0 ∧ (s.safetyIdentitySnapshot identity).state = .live ∧
      (s.safetyIdentitySnapshot identity).start ≤ base + offset ∧
      base + offset + width ≤
        (s.safetyIdentitySnapshot identity).start + (s.safetyIdentitySnapshot identity).size

variable {s : Registry} {base identity : ℕ} {offset width : BitVec 64}

/-- A live region ends below `2 ^ 48`. -/
theorem snapshot_end (hs : Shape s) (h : (s.safetyIdentitySnapshot identity).state = .live) :
    (s.safetyIdentitySnapshot identity).start + (s.safetyIdentitySnapshot identity).size ≤ 2 ^ 48 := by
  rw [safetyIdentitySnapshot] at h ⊢
  have hdead : ∀ r : SafetyRegion, (if r.state = .freelist then { r with state := .dead } else r).state = .live →
      (if r.state = .freelist then { r with state := .dead } else r) = r ∧ r.state = .live := by
    intro r hr
    split at hr
    · cases hr
    · rename_i hne
      rw [if_neg hne]
      exact ⟨rfl, hr⟩
  obtain ⟨heq, hlive⟩ := hdead _ h
  rw [heq]
  cases hregion : (s.safetyRegion (identity % identityIds)).filter (·.identity == identity) with
  | none =>
    rw [hregion] at hlive
    cases hlive
  | some r =>
    rw [hregion, Option.getD_some] at hlive
    obtain ⟨hsome, -⟩ := Option.filter_eq_some_iff.mp hregion
    rw [safetyRegion] at hsome
    split at hsome
    · cases hsome
    · cases hsome
      exact (hs.descriptors _).live_end hlive

/-- The 64-bit test is the test in integers. -/
theorem admits_iff {r : SafetyRegion} (hbase : base < 2 ^ 64) (hend : r.state = .live → r.start + r.size ≤ 2 ^ 48)
    (offset : BitVec 64) (width : ℕ) :
    admits r base offset width ↔ base ≠ 0 ∧ r.state = .live ∧ (r.start : ℤ) ≤ base + offset.toInt ∧
      base + offset.toInt + width ≤ r.start + r.size := by
  have haddress : checkedAddress base offset = (base + offset.toNat) % 2 ^ 64 := rfl
  rw [admits, decide_eq_true_iff, wrapped]
  generalize checkedAddress base offset = address at *
  by_cases hlive : r.state = .live
  · have hle := hend hlive
    rcases toInt_cases offset with ⟨hoff, hlt⟩ | ⟨hoff, hlt⟩ <;> rw [hoff]
    · rw [if_pos (by omega), decide_eq_true_eq]
      simp only [hlive, true_and]
      omega
    · rw [if_neg (by omega), decide_eq_true_eq]
      simp only [hlive, true_and]
      omega
  · simp [hlive]

/-- No identity names a region of the free list. -/
theorem snapshot_state_ne (s : Registry) (identity : ℕ) :
    (s.safetyIdentitySnapshot identity).state ≠ .freelist := by
  rw [safetyIdentitySnapshot]
  split
  · nofun
  · assumption

/-- A failed check of an identity always reports, except inside an allocator. -/
theorem safetyCheckFailed_cases (s : Registry) (base : ℕ) (offset width : BitVec 64) (line identity : ℕ) :
    s.allocatorDepth ≠ 0 ∧
        s.safetyCheckFailed base offset width line (some (s.safetyIdentitySnapshot identity)) = .ok () ∨
      s.allocatorDepth = 0 ∧ ∃ failure, failure.offset = offset ∧
        s.safetyCheckFailed base offset width line (some (s.safetyIdentitySnapshot identity)) =
          .error (.report failure) := by
  rw [safetyCheckFailed]
  split
  · rename_i hdepth
    exact .inl ⟨hdepth, rfl⟩
  · rename_i hdepth
    refine .inr ⟨not_not.mp hdepth, ?_⟩
    split
    · exact ⟨_, rfl, rfl⟩
    · split
      · rename_i hfree
        exact absurd hfree (snapshot_state_ne s identity)
      · exact ⟨_, rfl, rfl⟩
      · exact ⟨_, rfl, rfl⟩

/-- A failed check is only let pass inside the allocator. -/
theorem safetyCheckFailed_eq_ok {line : ℕ} :
    s.safetyCheckFailed base offset width line (some (s.safetyIdentitySnapshot identity)) = .ok () ↔
      s.allocatorDepth ≠ 0 := by
  rcases safetyCheckFailed_cases s base offset width line identity with ⟨hdepth, hok⟩ | ⟨hdepth, f, -, herr⟩
  · simp [hok, hdepth]
  · simp [herr, hdepth]

/-- The check of an access in 64 bits is the check in integers. -/
theorem checkIdentity_iff (hs : Shape s) (hbase : base < 2 ^ 64) (hwidth : 0 < width.toInt) (line : ℕ) :
    s.mettleSafetyCheckIdentity base offset width line identity = .ok () ↔
      s.ExactCheck base offset.toInt width.toInt identity := by
  obtain ⟨hwidth', -⟩ := toInt_of_nonneg hwidth.le
  rw [mettleSafetyCheckIdentity, ExactCheck]
  split
  · rename_i hzero
    simp [hzero, hwidth.not_ge]
  · rename_i hidentity
    rw [if_neg hwidth.not_ge, hwidth', ← admits_iff hbase (snapshot_end hs)]
    dsimp only
    split
    · rename_i hin
      exact ⟨fun _ => .inr ⟨hidentity, hin⟩, fun _ => rfl⟩
    · rename_i hout
      rw [safetyCheckFailed_eq_ok]
      exact ⟨.inl, fun h => h.resolve_right fun h => hout h.2⟩

section Loop

variable {bound firstBound counterStep byteStep : BitVec 64}

/-- The hoisted check of a loop. -/
def hoistedCheck (s : Registry) (base : ℕ) (offset : BitVec 64) (line identity : ℕ)
    (bound firstBound counterStep byteStep width : BitVec 64) : Except Trap Unit :=
  s.mettleSafetyCheckAffine base offset
    (mettleSafetyLoopLength bound firstBound counterStep byteStep width) line identity width byteStep

/-- One inequality for the accesses of a whole loop inside a region. -/
theorem admits_length_iff (hs : Shape s) (hbase : base < 2 ^ 64) (hidentity : identity ≠ 0)
    (hdepth : s.allocatorDepth = 0) (hbound : firstBound.toInt ≤ bound.toInt) (hcounter : 0 < counterStep.toInt)
    (hstep : 0 < byteStep.toInt) (hwidth : 0 < width.toInt) :
    admits (s.safetyIdentitySnapshot identity) base offset
        (mettleSafetyLoopLength bound firstBound counterStep byteStep width).toNat ↔
      ∀ i ≤ lastRound bound firstBound counterStep,
        s.ExactCheck base (offset.toInt + i * byteStep.toInt) width.toInt identity := by
  obtain ⟨hstep', -⟩ := toInt_of_nonneg hstep.le
  obtain ⟨hwidth', hwidthlt⟩ := toInt_of_nonneg hwidth.le
  rw [admits_iff hbase (snapshot_end hs), loopLength_toNat hbound hcounter hstep.le hwidth]
  simp only [ExactCheck, hdepth, ne_eq, not_true_eq_false, false_or, hidentity, not_false_eq_true, true_and, hstep',
    hwidth']
  generalize lastRound bound firstBound counterStep = last
  constructor
  · rintro ⟨hne, hlive, hstart, hfits⟩ i hi
    have hend := snapshot_end hs hlive
    have hmul : i * byteStep.toNat ≤ last * byteStep.toNat := Nat.mul_le_mul_right _ hi
    refine ⟨hne, hlive, ?_, ?_⟩
    · omega
    · omega
  · intro hall
    obtain ⟨hne, hlive, hstart, -⟩ := hall 0 (Nat.zero_le _)
    obtain ⟨-, -, -, hfits⟩ := hall last le_rfl
    refine ⟨hne, hlive, by simpa using hstart, ?_⟩
    omega

/-- The length of a loop that runs is positive. -/
theorem loopLength_pos (hbound : firstBound.toInt ≤ bound.toInt) (hcounter : 0 < counterStep.toInt)
    (hstep : 0 ≤ byteStep.toInt) (hwidth : 0 < width.toInt) :
    0 < (mettleSafetyLoopLength bound firstBound counterStep byteStep width).toInt := by
  have hlength := loopLength_toNat hbound hcounter hstep hwidth
  obtain ⟨hwidth', -⟩ := toInt_of_nonneg hwidth.le
  rcases toInt_cases (mettleSafetyLoopLength bound firstBound counterStep byteStep width) with h | h <;> omega

/-- What the hoisted check of a loop that runs does. -/
theorem hoistedCheck_eq (hbound : firstBound.toInt ≤ bound.toInt) (hcounter : 0 < counterStep.toInt)
    (hstep : 0 ≤ byteStep.toInt) (hwidth : 0 < width.toInt) (line : ℕ) :
    s.hoistedCheck base offset line identity bound firstBound counterStep byteStep width =
      if identity = 0 ∨ byteStep.toInt = 0 then s.mettleSafetyCheckIdentity base offset width line identity
      else if admits (s.safetyIdentitySnapshot identity) base offset
        (mettleSafetyLoopLength bound firstBound counterStep byteStep width).toNat then .ok ()
      else s.safetyCheckFailed base (affineOffset (s.safetyIdentitySnapshot identity) base offset width byteStep)
        width line (some (s.safetyIdentitySnapshot identity)) := by
  rw [hoistedCheck, mettleSafetyCheckAffine, if_neg (loopLength_pos hbound hcounter hstep hwidth).not_ge]
  have hcond : (identity = 0 ∨ width.toInt ≤ 0 ∨ byteStep.toInt ≤ 0) ↔ identity = 0 ∨ byteStep.toInt = 0 := by
    omega
  simp only [hcond]

/-- The hoisted check returns if and only if all checks of the loop do. -/
theorem hoistedCheck_ok_iff (hs : Shape s) (hbase : base < 2 ^ 64) (hcounter : 0 < counterStep.toInt)
    (hstep : 0 ≤ byteStep.toInt) (hwidth : 0 < width.toInt) (line : ℕ) :
    s.hoistedCheck base offset line identity bound firstBound counterStep byteStep width = .ok () ↔
      ∀ i : ℕ, firstBound.toInt + i * counterStep.toInt ≤ bound.toInt →
        s.ExactCheck base (offset.toInt + i * byteStep.toInt) width.toInt identity := by
  rcases lt_or_ge bound.toInt firstBound.toInt with hempty | hbound
  · have hlength : mettleSafetyLoopLength bound firstBound counterStep byteStep width = 0 := if_pos hempty
    rw [hoistedCheck, hlength, mettleSafetyCheckAffine, if_pos (by decide)]
    refine ⟨fun _ i hi => ?_, fun _ => rfl⟩
    have hnonneg : 0 ≤ (i : ℤ) * counterStep.toInt := by positivity
    omega
  rw [hoistedCheck_eq hbound hcounter hstep hwidth]
  simp only [← le_lastRound hbound hcounter]
  split
  · rename_i hsame
    rw [checkIdentity_iff hs hbase hwidth]
    -- every access of the loop is checked alike
    have hconst : ∀ i : ℕ, s.ExactCheck base (offset.toInt + i * byteStep.toInt) width.toInt identity ↔
        s.ExactCheck base offset.toInt width.toInt identity := by
      intro i
      rcases hsame with hzero | hzero
      · simp [ExactCheck, hzero]
      · rw [hzero, mul_zero, add_zero]
    simp only [hconst]
    exact ⟨fun h _ _ => h, fun h => h 0 (Nat.zero_le _)⟩
  · rename_i hmoves
    rw [not_or] at hmoves
    have hpos : 0 < byteStep.toInt := by omega
    by_cases hdepth : s.allocatorDepth = 0
    · rw [← admits_length_iff hs hbase hmoves.1 hdepth hbound hcounter hpos hwidth]
      split
      · rename_i hin
        exact ⟨fun _ => hin, fun _ => rfl⟩
      · rename_i hout
        rw [safetyCheckFailed_eq_ok]
        exact ⟨fun h => absurd hdepth h, fun h => absurd h hout⟩
    · refine ⟨fun _ _ _ => .inl hdepth, fun _ => ?_⟩
      split
      · rfl
      · exact safetyCheckFailed_eq_ok.mpr hdepth

/-- An address in range is not saturated. -/
theorem checkedAddress_eq (hlow : 0 ≤ base + offset.toInt) (hhigh : base + offset.toInt < 2 ^ 64) :
    (checkedAddress base offset : ℤ) = base + offset.toInt := by
  rw [checkedAddress]
  rcases toInt_cases offset with h | h <;> omega

/-- Adding the steps of so many rounds, as far as they fit. -/
theorem add_rounds_toInt {i : ℕ} (hfits : offset.toInt + (i * byteStep.toNat : ℕ) ≤ 2 ^ 63 - 1) (hi : i < 2 ^ 64) :
    (offset + i * byteStep).toInt = offset.toInt + (i * byteStep.toNat : ℕ) := by
  have hmul : ((i : BitVec 64) * byteStep).toNat = i * byteStep.toNat % 2 ^ 64 := by
    rw [BitVec.toNat_mul, BitVec.natCast_eq_ofNat, BitVec.toNat_ofNat, Nat.mod_eq_of_lt hi]
  have hadd : (offset + i * byteStep).toNat = (offset.toNat + i * byteStep.toNat % 2 ^ 64) % 2 ^ 64 := by
    rw [BitVec.toNat_add, hmul]
  rcases toInt_cases offset with h | h <;> rcases toInt_cases (offset + i * byteStep) with h' | h' <;> omega

/-- The number of the first access that leaves the region. -/
theorem affineOffset_spec (hs : Shape s) (hbase : base < 2 ^ 64) (hidentity : identity ≠ 0)
    (hdepth : s.allocatorDepth = 0) (hstep : 0 < byteStep.toInt) (hwidth : 0 < width.toInt) :
    ∃ i : ℕ, ¬ s.ExactCheck base (offset.toInt + i * byteStep.toInt) width.toInt identity ∧
      (∀ j < i, s.ExactCheck base (offset.toInt + j * byteStep.toInt) width.toInt identity) ∧
      (affineOffset (s.safetyIdentitySnapshot identity) base offset width byteStep).toInt =
        min (offset.toInt + i * byteStep.toInt) (2 ^ 63 - 1) := by
  obtain ⟨hstep', hsteplt⟩ := toInt_of_nonneg hstep.le
  obtain ⟨hwidth', hwidthlt⟩ := toInt_of_nonneg hwidth.le
  -- the exact check is a bound on the offset, since base and identity do not change over the loop
  have hexact : ∀ o : ℤ, s.ExactCheck base o width.toInt identity ↔ base ≠ 0 ∧
      (s.safetyIdentitySnapshot identity).state = .live ∧
      (s.safetyIdentitySnapshot identity).start ≤ base + o ∧
      base + o + width.toNat ≤
        (s.safetyIdentitySnapshot identity).start + (s.safetyIdentitySnapshot identity).size := by
    intro o
    simp [ExactCheck, hdepth, hidentity, hwidth']
  have hadmits := admits_iff (r := s.safetyIdentitySnapshot identity) hbase (snapshot_end hs) offset width.toNat
  rw [affineOffset]
  -- the offset now admitted: the loop may run on until the room is used up
  split
  · rename_i hin
    obtain ⟨hne, hlive, hstart, hfits⟩ := hadmits.mp hin
    have hend := snapshot_end hs hlive
    have haddress : (checkedAddress base offset : ℤ) = base + offset.toInt :=
      checkedAddress_eq (by omega) (by omega)
    generalize s.safetyIdentitySnapshot identity = r at *
    generalize hroom : r.size - width.toNat - (checkedAddress base offset - r.start) = room
    have hpos : 0 < byteStep.toNat := by omega
    have hsmall : room / byteStep.toNat + 1 < 2 ^ 64 := by
      have := Nat.div_le_self room byteStep.toNat
      omega
    have hlimit : ((int64Max - offset).toNat : ℤ) = 2 ^ 63 - 1 - offset.toInt := by
      rw [BitVec.toNat_sub, int64Max_toNat]
      rcases toInt_cases offset with h | h <;> omega
    have hover : room < (room / byteStep.toNat + 1) * byteStep.toNat := 
      Nat.lt_mul_of_div_lt (Nat.lt_succ_self _) hpos
    dsimp only
    rw [Nat.mod_eq_of_lt hsmall]
    generalize hi : room / byteStep.toNat + 1 = i at *
    refine ⟨i, ?_, fun j hj => ?_, ?_⟩
    · rw [hexact, hstep', ← Nat.cast_mul]
      omega
    · have hle : j * byteStep.toNat ≤ room := by
        rw [← Nat.le_div_iff_mul_le hpos]
        omega
      rw [hexact, hstep', ← Nat.cast_mul]
      exact ⟨hne, hlive, by omega, by omega⟩
    · rw [hstep', ← Nat.cast_mul]
      split
      · rename_i hle
        rw [Nat.le_div_iff_mul_le hpos] at hle
        rw [add_rounds_toInt (by omega) hsmall, min_eq_left (by omega)]
      · rename_i hgt
        rw [Nat.le_div_iff_mul_le hpos] at hgt
        rw [min_eq_right (by omega)]
        decide
  -- the offset now is not admitted, so the first access already fails
  · rename_i hout
    refine ⟨0, ?_, nofun, ?_⟩
    · rw [Nat.cast_zero, zero_mul, add_zero, hexact, ← hadmits]
      exact hout
    · rw [Nat.cast_zero, zero_mul, add_zero, min_eq_left]
      rcases toInt_cases offset with h | h <;> omega

/-- A failed hoisted check reports the first access of the loop that fails. -/
theorem hoistedCheck_error (hs : Shape s) (hbase : base < 2 ^ 64) (hcounter : 0 < counterStep.toInt)
    (hstep : 0 < byteStep.toInt) (hwidth : 0 < width.toInt) {line : ℕ} {trap : Trap}
    (h : s.hoistedCheck base offset line identity bound firstBound counterStep byteStep width = .error trap) :
    ∃ (failure : SafetyFailure) (i : ℕ), trap = .report failure ∧
      firstBound.toInt + i * counterStep.toInt ≤ bound.toInt ∧
      ¬ s.ExactCheck base (offset.toInt + i * byteStep.toInt) width.toInt identity ∧
      (∀ j < i, s.ExactCheck base (offset.toInt + j * byteStep.toInt) width.toInt identity) ∧
      failure.offset.toInt = min (offset.toInt + i * byteStep.toInt) (2 ^ 63 - 1) := by
  have hfails : ¬ ∀ i : ℕ, firstBound.toInt + i * counterStep.toInt ≤ bound.toInt →
      s.ExactCheck base (offset.toInt + i * byteStep.toInt) width.toInt identity := by
    rw [← hoistedCheck_ok_iff hs hbase hcounter hstep.le hwidth line, h]
    nofun
  have hbound : firstBound.toInt ≤ bound.toInt := by
    by_contra hempty
    refine hfails fun i hi => ?_
    have hnonneg : 0 ≤ (i : ℤ) * counterStep.toInt := by positivity
    omega
  simp only [← le_lastRound hbound hcounter] at hfails ⊢
  rw [hoistedCheck_eq hbound hcounter hstep.le hwidth] at h
  have hfits : offset.toInt ≤ 2 ^ 63 - 1 := by
    rcases toInt_cases offset with hoff | hoff <;> omega
  split at h
  · rename_i hzero
    replace hzero : identity = 0 := hzero.resolve_right hstep.ne'
    rw [mettleSafetyCheckIdentity, if_pos hzero] at h
    split at h
    · cases h
    · rename_i hreport
      cases h
      refine ⟨_, 0, rfl, Nat.zero_le _, ?_, nofun, ?_⟩
      · rw [not_or] at hreport
        simp [ExactCheck, hzero, not_not.mp hreport.2]
      · rw [Nat.cast_zero, zero_mul, add_zero, min_eq_left hfits]
  · rename_i hidentity
    rw [not_or] at hidentity
    split at h
    · cases h
    · rcases safetyCheckFailed_cases s base (affineOffset (s.safetyIdentitySnapshot identity) base offset width
        byteStep) width line identity with ⟨-, hok⟩ | ⟨hdepth, failure, hoffset, herror⟩
      · rw [hok] at h
        cases h
      · rw [herror] at h
        cases h
        obtain ⟨i, hi, hbefore, hvalue⟩ := affineOffset_spec hs hbase hidentity.1 hdepth hstep hwidth
        refine ⟨failure, i, rfl, ?_, hi, hbefore, hoffset ▸ hvalue⟩
        -- the loop has a failing access, and none fails before this one
        by_contra hafter
        refine hfails fun j hj => hbefore j ?_
        omega

end Loop

/-- The depth of the allocator does not matter to the registry's shape. -/
theorem Shape.atDepth (hs : Shape s) (depth : ℕ) : Shape (s.atDepth depth) where
  next_pos := hs.next_pos
  next_le := hs.next_le
  slots_lt := hs.slots_lt
  slots_out := hs.slots_out
  unused := hs.unused
  free := hs.free
  descriptors := hs.descriptors
  identities := ⟨hs.identities.id_eq, hs.identities.pos, hs.identities.le, hs.identities.inj⟩

end Registry

open Registry

namespace Safety

/-- After any run, the check in front of a loop returns if and only if the checks of all its accesses would;
when it fails, it reports the offset of the first access that fails, or the largest offset when that one does
not fit in 64 bits. -/
theorem run_hoistedCheck {calls : List Call} {t : Safety} {log : List ℕ}
    (h : Safety.init.run calls = .ok (t, log)) (depth : ℕ) (base : BitVec 64) (line identity : ℕ)
    (offset bound firstBound counterStep byteStep width : BitVec 64) (hcounter : 0 < counterStep.toInt)
    (hstep : 0 ≤ byteStep.toInt) (hwidth : 0 < width.toInt) :
    ((t.registry.atDepth depth).hoistedCheck base.toNat offset line identity bound firstBound counterStep
        byteStep width = .ok () ↔
      ∀ i : ℕ, firstBound.toInt + i * counterStep.toInt ≤ bound.toInt →
        (t.registry.atDepth depth).ExactCheck base.toNat (offset.toInt + i * byteStep.toInt) width.toInt
          identity) ∧
    ∀ trap, 0 < byteStep.toInt →
      (t.registry.atDepth depth).hoistedCheck base.toNat offset line identity bound firstBound counterStep
        byteStep width = .error trap →
      ∃ (failure : SafetyFailure) (i : ℕ), trap = .report failure ∧
        firstBound.toInt + i * counterStep.toInt ≤ bound.toInt ∧
        ¬ (t.registry.atDepth depth).ExactCheck base.toNat (offset.toInt + i * byteStep.toInt) width.toInt
          identity ∧
        (∀ j < i, (t.registry.atDepth depth).ExactCheck base.toNat (offset.toInt + j * byteStep.toInt)
          width.toInt identity) ∧
        failure.offset.toInt = min (offset.toInt + i * byteStep.toInt) (2 ^ 63 - 1) := by
  have hs := (run_inv Inv.init h).1.shape.atDepth depth
  exact ⟨hoistedCheck_ok_iff hs base.isLt hcounter hstep hwidth line,
    fun trap hpos herror => hoistedCheck_error hs base.isLt hcounter hpos hwidth herror⟩

/-- The first region that is registered has this identity. -/
def firstIdentity : ℕ := 1 <<< 24 ||| 2

/-- A loop of five accesses over sixteen bytes: the fifth one is reported. -/
theorem run_hoistedCheck_fifth : ∃ t log failure,
    Safety.init.run [.register 4096 16] = .ok (t, log) ∧
      (t.registry.atDepth 0).hoistedCheck 4096 0 7 firstIdentity 4 0 1 4 4 = .error (.report failure) ∧
      failure.offset = 16 ∧
      ∃ i : ℕ, ¬ (t.registry.atDepth 0).ExactCheck 4096 (i * 4) 4 firstIdentity ∧
        ∀ j < i, (t.registry.atDepth 0).ExactCheck 4096 (j * 4) 4 firstIdentity := by
  obtain ⟨t, log, h⟩ : ∃ t log, Safety.init.run [.register 4096 16] = .ok (t, log) := ⟨_, _, rfl⟩
  have hcheck : (t.registry.atDepth 0).hoistedCheck 4096 0 7 firstIdentity 4 0 1 4 4 = .error (.report
      ⟨"memory access outside its allocation", 7, 16, 4, 16, true⟩) := by
    obtain ⟨rfl, -⟩ := Prod.mk.inj (Except.ok.inj h)
    decide
  obtain ⟨-, herror⟩ := run_hoistedCheck h 0 4096 7 firstIdentity 0 4 0 1 4 4 (by decide) (by decide) (by decide)
  obtain ⟨failure, i, -, -, hi, hbefore, -⟩ := herror _ (by decide) hcheck
  refine ⟨t, log, _, h, hcheck, rfl, i, ?_, fun j hj => ?_⟩
  · simpa using hi
  · simpa using hbefore j hj

/-- A step so large that the second offset does not fit in 64 bits: the largest offset is reported, which is not
the offset of the access that fails. -/
theorem run_hoistedCheck_saturates : ∃ t log failure,
    Safety.init.run [.register 4096 16] = .ok (t, log) ∧
      (t.registry.atDepth 0).hoistedCheck 4096 1 7 firstIdentity 1 0 1 int64Max 8 = .error (.report failure) ∧
      (t.registry.atDepth 0).ExactCheck 4096 (1 + (0 : ℕ) * int64Max.toInt) 8 firstIdentity ∧
      ¬ (t.registry.atDepth 0).ExactCheck 4096 (1 + (1 : ℕ) * int64Max.toInt) 8 firstIdentity ∧
      failure.offset.toInt ≠ 1 + (1 : ℕ) * int64Max.toInt := by
  obtain ⟨t, log, h⟩ : ∃ t log, Safety.init.run [.register 4096 16] = .ok (t, log) := ⟨_, _, rfl⟩
  have hcheck : (t.registry.atDepth 0).hoistedCheck 4096 1 7 firstIdentity 1 0 1 int64Max 8 = .error (.report
      ⟨"memory access outside its allocation", 7, int64Max, 8, 16, true⟩) := by
    obtain ⟨rfl, -⟩ := Prod.mk.inj (Except.ok.inj h)
    decide
  have hregion : ((t.registry.atDepth 0).safetyIdentitySnapshot firstIdentity).state = .live ∧
      ((t.registry.atDepth 0).safetyIdentitySnapshot firstIdentity).start = 4096 ∧
      ((t.registry.atDepth 0).safetyIdentitySnapshot firstIdentity).size = 16 := by
    obtain ⟨rfl, -⟩ := Prod.mk.inj (Except.ok.inj h)
    decide
  have hmax : int64Max.toInt = 2 ^ 63 - 1 := by decide
  obtain ⟨hlive, hstart, hsize⟩ := hregion
  refine ⟨t, log, _, h, hcheck, .inr ⟨by decide, by decide, hlive, ?_, ?_⟩, ?_, ?_⟩
  · rw [hstart]
    norm_num
  · rw [hstart, hsize]
    norm_num
  · rintro (hdepth | ⟨-, -, -, -, hfits⟩)
    · exact hdepth rfl
    · rw [hstart, hsize, hmax] at hfits
      norm_num at hfits
  · rw [hmax]
    norm_num

end Safety

end Mettle.Runtime

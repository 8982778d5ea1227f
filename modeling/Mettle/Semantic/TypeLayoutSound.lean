import Mettle.Semantic.TypeLayout

/-!
# The layout of struct types does not overlap

The loop over unbounded numbers keeps every field apart from the ones before it. The loop of the code agrees
with it as long as no sum and no product wraps; so the layout is right exactly for the structs whose layout
over unbounded numbers fits in `size_t`, with bit offsets that fit in 32 bits.
-/

open Option
open List hiding Disjoint

namespace Mettle.Semantic

variable {types : Types} {s s' : LayoutState} {f p : Field} {fields done done' : List Field}

/-! ## What a good layout is -/

/-- The bits of the struct that a field has. -/
def Field.bitRange (types : Types) (f : Field) : Set ℕ :=
  let low := 8 * f.byteOffset + f.bitOffset
  Set.Ico low (low + if f.bitWidth = 0 then 8 * fieldSize types f else f.bitWidth.toNat)

/-- The fields of a struct have room of their own in it. -/
structure LayoutOk (types : Types) (type : Ty) : Prop where
  aligned : ∀ f ∈ type.fields, f.bitWidth = 0 → fieldAlign types f ∣ f.byteOffset
  disjoint : type.fields.Pairwise fun f g => Disjoint (f.bitRange types) (g.bitRange types)
  inUnit : ∀ f ∈ type.fields, f.bitWidth ≠ 0 →
    fieldAlign types f ∣ f.byteOffset ∧ f.bitOffset + f.bitWidth.toNat ≤ 8 * fieldSize types f
  within : ∀ f ∈ type.fields, f.byteOffset + fieldSize types f ≤ type.size.toNat
  size_aligned : type.alignment.toNat ∣ type.size.toNat

/-- The sum in `align_up`, when it is made. -/
def alignUpSums (value alignment : ℕ) : List ℕ :=
  if alignment ≤ 1 ∨ value % alignment = 0 then [] else [value + (alignment - value % alignment)]

/-- The sums that place a plain field or a storage unit. -/
def LayoutState.placeSums (types : Types) (s : LayoutState) (f : Field) : List ℕ :=
  alignUpSums (if s.unitEnd < s.offset then s.offset else s.unitEnd) (fieldAlign types f) ++
    [s.next .machine types f + fieldSize types f]

/-- The sums and products of sizes that the body of the loop makes, before they are cut off. -/
def LayoutState.sums (types : Types) (s : LayoutState) (f : Field) : List ℕ :=
  if f.bitWidth = 0 then s.placeSums types f
  else
    fieldSize types f * 8 ::
      ((if s.unitType ≠ none ∧ s.unitType = f.type then [s.unitUsed + f.bitWidth.toNat] else []) ++
        (if s.newUnit .machine types f then s.placeSums types f else []) ++
          [(s.openUnit .machine types f).unitUsed + f.bitWidth.toNat])

/-- The sums and products of sizes that `compute_struct_layout` makes. -/
def layoutSums (types : Types) (s : LayoutState) : List Field → List ℕ
  | [] => alignUpSums s.stop s.maxAlign
  | f :: fields => s.sums types f ++
      match s.step .machine types f with
      | some (s, _) => layoutSums types s fields
      | none => []

/-- No sum and no product of sizes leaves `size_t`. -/
def NoWrap (types : Types) (fields : List Field) : Prop := ∀ n ∈ layoutSums types {} fields, n < 2 ^ 64

/-- Laid out with numbers of any size, the struct fits in `size_t`: its own size, the bits of every storage
unit, and in 32 bits the bit offsets. -/
structure FitsSizeT (types : Types) (fields : List Field) : Prop where
  storage : ∀ f ∈ fields, f.bitWidth ≠ 0 → fieldSize types f * 8 < 2 ^ 64
  layout : ∃ s placed, layoutFrom .unbounded types {} [] fields = some (s, placed) ∧
    s.total .unbounded < 2 ^ 64 ∧ ∀ f ∈ placed, f.bitOffset < 2 ^ 32

/-! ## Rounding up -/

@[simp] theorem Arith.unbounded_size (n : ℕ) : Arith.unbounded.size n = n := rfl

@[simp] theorem Arith.unbounded_bits (n : ℕ) : Arith.unbounded.bits n = n := rfl

variable {n value alignment : ℕ}

theorem Arith.machine_size (h : n < 2 ^ 64) : Arith.machine.size n = n := Nat.mod_eq_of_lt h

/-- When no intermediate sum wraps, the machine aligns as the integers do. -/
theorem alignUp_of_sums (h : ∀ n ∈ alignUpSums value alignment, n < 2 ^ 64) :
    alignUp .machine value alignment = alignUp .unbounded value alignment := by
  unfold alignUp
  by_cases hone : alignment ≤ 1
  · rw [if_pos hone, if_pos hone]
  · rw [if_neg hone, if_neg hone]
    by_cases hrem : value % alignment = 0
    · simp [hrem]
    · have hlt : value + (alignment - value % alignment) < 2 ^ 64 :=
        h _ (by simp [alignUpSums, hone, hrem])
      simp [hrem, Arith.machine_size hlt, Arith.unbounded_size]

theorem le_alignUp (value alignment : ℕ) : value ≤ alignUp .unbounded value alignment := by
  unfold alignUp
  split
  · exact le_rfl
  · dsimp only
    split <;> simp

/-- The aligned value is a multiple of the alignment. -/
theorem dvd_alignUp (value : ℕ) (h : 0 < alignment) : alignment ∣ alignUp .unbounded value alignment := by
  unfold alignUp
  split
  · rw [show alignment = 1 by omega]
    exact one_dvd _
  · dsimp only
    split
    · have hlt := Nat.mod_lt value h
      have hdiv := Nat.div_add_mod value alignment
      refine ⟨value / alignment + 1, ?_⟩
      rw [Arith.unbounded_size, mul_add, mul_one]
      omega
    · exact Nat.dvd_of_mod_eq_zero (not_not.mp ‹_›)

/-- The intermediate sums of an alignment are at most its result. -/
theorem alignUpSums_le (h : n ∈ alignUpSums value alignment) : n ≤ alignUp .unbounded value alignment := by
  unfold alignUpSums at h
  split at h
  · simp at h
  · rename_i hsum
    obtain ⟨hone, hrem⟩ := not_or.mp hsum
    rw [mem_singleton.mp h, alignUp, if_neg hone]
    simp [hrem]

theorem fieldAlign_pos (types : Types) (f : Field) : 0 < fieldAlign types f := by
  unfold fieldAlign
  split
  · split
    · rename_i hne
      exact Nat.pos_of_ne_zero fun hzero => hne (BitVec.eq_of_toNat_eq hzero)
    · exact Nat.one_pos
  · exact Nat.one_pos

theorem fieldAlign_lt (types : Types) (f : Field) : fieldAlign types f < 2 ^ 64 := by
  unfold fieldAlign
  split
  · split
    · exact BitVec.isLt _
    · norm_num
  · norm_num

/-! ## One field -/

/-- The field with its bit offset as it is stored. -/
def Field.stored (f : Field) : Field := { f with bitOffset := f.bitOffset % 2 ^ 32 }

/-- A bit offset that fits is stored unchanged. -/
theorem Field.stored_of_lt (h : f.bitOffset < 2 ^ 32) : f.stored = f := by
  rw [stored, Nat.mod_eq_of_lt h]

/-- When none of its sums wraps, a plain field is placed as over the integers. -/
theorem placePlain_of_sums (h : ∀ n ∈ s.placeSums types f, n < 2 ^ 64) :
    s.next .machine types f = s.next .unbounded types f ∧
      Arith.machine.size (s.next .unbounded types f + fieldSize types f) =
        s.next .unbounded types f + fieldSize types f := by
  have hnext : s.next .machine types f = s.next .unbounded types f :=
    alignUp_of_sums fun n hn => h n (mem_append_left _ hn)
  have hstop := h (s.next .machine types f + fieldSize types f) (by simp [LayoutState.placeSums])
  rw [hnext] at hstop
  exact ⟨hnext, Arith.machine_size hstop⟩

/-- What the sums of a bit-field are. -/
structure BitFieldSums (types : Types) (s : LayoutState) (f : Field) : Prop where
  storage : fieldSize types f * 8 < 2 ^ 64
  check : s.unitType ≠ none → s.unitType = f.type → s.unitUsed + f.bitWidth.toNat < 2 ^ 64
  place : s.newUnit .machine types f = true → ∀ n ∈ s.placeSums types f, n < 2 ^ 64
  used : (s.openUnit .machine types f).unitUsed + f.bitWidth.toNat < 2 ^ 64

/-- The sums of a bit-field fit exactly when those of a new unit do. -/
theorem sums_lt_iff (hwidth : f.bitWidth ≠ 0) :
    (∀ n ∈ s.sums types f, n < 2 ^ 64) ↔ BitFieldSums types s f := by
  simp only [LayoutState.sums, hwidth, if_false, forall_mem_cons, forall_mem_append]
  constructor
  · rintro ⟨hstorage, ⟨hcheck, hplace⟩, hused, -⟩
    refine ⟨hstorage, fun hopen hsame => ?_, fun hnew => ?_, hused⟩
    · rw [if_pos ⟨hopen, hsame⟩] at hcheck
      exact hcheck _ mem_cons_self
    · rw [if_pos hnew] at hplace
      exact hplace
  · rintro ⟨hstorage, hcheck, hplace, hused⟩
    refine ⟨hstorage, ⟨fun n hn => ?_, fun n hn => ?_⟩, hused, fun _ h => absurd h not_mem_nil⟩
    · split at hn
      · rename_i hopen
        rw [mem_singleton.mp hn]
        exact hcheck hopen.1 hopen.2
      · simp at hn
    · split at hn
      · exact hplace ‹_› n hn
      · simp at hn

section

variable (hstorage : fieldSize types f * 8 < 2 ^ 64)
  (hcheck : s.unitType ≠ none → s.unitType = f.type → s.unitUsed + f.bitWidth.toNat < 2 ^ 64)
include hstorage hcheck

/-- Whether a bit-field starts a new unit does not depend on the arithmetic. -/
theorem newUnit_of_sums : s.newUnit .machine types f = s.newUnit .unbounded types f := by
  unfold LayoutState.newUnit
  by_cases hsame : s.unitType ≠ none ∧ s.unitType = f.type
  · rw [Arith.machine_size hstorage, Arith.machine_size (hcheck hsame.1 hsame.2)]
    rfl
  · have hne : s.unitType = none ∨ s.unitType ≠ f.type := by
      by_contra hcon
      exact hsame ⟨fun hn => hcon (.inl hn), not_not.mp fun hn => hcon (.inr hn)⟩
    rcases hne with hn | hn <;> simp [hn]

/-- A unit is opened as over the integers when the sums of its place do not wrap. -/
theorem openUnit_of_sums (hplace : s.newUnit .unbounded types f = true → ∀ n ∈ s.placeSums types f, n < 2 ^ 64) :
    s.openUnit .machine types f = s.openUnit .unbounded types f := by
  unfold LayoutState.openUnit
  rw [newUnit_of_sums hstorage hcheck]
  split
  · obtain ⟨hnext, hstop⟩ := placePlain_of_sums (hplace ‹_›)
    dsimp only
    rw [hnext, hstop, Arith.machine_size hstorage]
    rfl
  · rfl

end

/-- Where no sum wraps, the body of the loop does what it does over unbounded numbers. -/
theorem step_of_sums (h : ∀ n ∈ s.sums types f, n < 2 ^ 64) :
    s.step .machine types f = (s.step .unbounded types f).map (Prod.map id Field.stored) := by
  unfold LayoutState.step
  by_cases hwidth : f.bitWidth = 0
  · rw [if_pos hwidth, if_pos hwidth]
    simp only [LayoutState.sums, hwidth, if_true] at h
    obtain ⟨hnext, hstop⟩ := placePlain_of_sums h
    simp only [LayoutState.placePlain, hnext, hstop]
    rfl
  · rw [if_neg hwidth, if_neg hwidth]
    have hsums := (sums_lt_iff hwidth).mp h
    have hunit := openUnit_of_sums hsums.storage hsums.check fun hnew =>
      hsums.place ((newUnit_of_sums hsums.storage hsums.check).trans hnew)
    have hused := hsums.used
    rw [hunit] at hused
    dsimp only
    rw [Arith.machine_size hsums.storage, Arith.unbounded_size]
    split
    · rfl
    · simp only [LayoutState.takeBits, hunit, Arith.machine_size hused, map_some]
      rfl

/-! ## The invariant of the loop -/

/-- The first bit that no field has. -/
def LayoutState.front (s : LayoutState) : ℕ :=
  if s.unitType = none then 8 * s.unitEnd else 8 * s.offset + s.unitUsed

/-- An open storage unit: its first bits are those of the fields that were put in it. -/
structure LayoutState.Unit (types : Types) (s : LayoutState) (done : List Field) (t : TypeId) : Prop where
  end_eq : s.unitEnd = s.offset + (types t).size.toNat
  bits_eq : s.unitBits = (types t).size.toNat * 8
  used_le : s.unitUsed ≤ s.unitBits
  aligned : ∀ f : Field, f.type = some t → fieldAlign types f ∣ s.offset
  covered : ∀ b, 8 * s.offset ≤ b → b < 8 * s.offset + s.unitUsed → ∃ g ∈ done, b ∈ g.bitRange types
  last : s.unitUsed = 0 ∨ ∃ g ∈ done, s.unitUsed = g.bitOffset + g.bitWidth.toNat

/-- A field that is laid out, in terms of the state after it. -/
structure LayoutState.Placed (types : Types) (s : LayoutState) (g : Field) : Prop where
  aligned : fieldAlign types g ∣ g.byteOffset
  inUnit : g.bitWidth ≠ 0 → g.bitOffset + g.bitWidth.toNat ≤ 8 * fieldSize types g
  within : g.byteOffset + fieldSize types g ≤ s.unitEnd
  front : ∀ b ∈ g.bitRange types, b < s.front

/-- What the loop keeps, over unbounded numbers. -/
structure LayoutInv (types : Types) (s : LayoutState) (done : List Field) : Prop where
  closed : s.unitType = none → s.offset = s.unitEnd
  opened : ∀ t, s.unitType = some t → s.Unit types done t
  align_pos : 0 < s.maxAlign
  align_lt : s.maxAlign < 2 ^ 64
  placed : ∀ g ∈ done, s.Placed types g
  disjoint : done.Pairwise fun f g => Disjoint (f.bitRange types) (g.bitRange types)

theorem LayoutInv.offset_le (h : LayoutInv types s done) : s.offset ≤ s.unitEnd := by
  cases htype : s.unitType with
  | none => exact (h.closed htype).le
  | some t =>
    rw [(h.opened t htype).end_eq]
    exact Nat.le_add_right _ _

/-- The bits that are taken end inside the current unit. -/
theorem LayoutInv.front_le (h : LayoutInv types s done) : s.front ≤ 8 * s.unitEnd := by
  unfold LayoutState.front
  split
  · exact le_rfl
  · cases htype : s.unitType with
    | none => contradiction
    | some t =>
      have hunit := h.opened t htype
      have := hunit.end_eq
      have := hunit.bits_eq
      have := hunit.used_le
      omega

/-- The next place is behind all there is. -/
theorem LayoutInv.le_next (h : LayoutInv types s done) (f : Field) : s.unitEnd ≤ s.next .unbounded types f := by
  have := h.offset_le
  unfold LayoutState.next
  rw [if_neg (by omega)]
  exact le_alignUp _ _

/-- A placed field stays placed as the layout grows. -/
theorem LayoutState.Placed.mono {g : Field} (h : s.Placed types g) (hend : s.unitEnd ≤ s'.unitEnd)
    (hfront : s.front ≤ s'.front) : s'.Placed types g :=
  ⟨h.aligned, h.inUnit, h.within.trans hend, fun b hb => (h.front b hb).trans_le hfront⟩

/-- A field whose bits start at the front or after it keeps the fields disjoint. -/
theorem LayoutInv.disjoint_push (h : LayoutInv types s done) (hp : ∀ b ∈ p.bitRange types, s.front ≤ b) :
    (done ++ [p]).Pairwise fun f g => Disjoint (f.bitRange types) (g.bitRange types) := by
  rw [pairwise_append]
  refine ⟨h.disjoint, pairwise_singleton _ _, fun g hg p' hp' => ?_⟩
  rw [mem_singleton.mp hp', Set.disjoint_left]
  intro b hbg hbp
  exact absurd ((h.placed g hg).front b hbg) (not_lt.mpr (hp b hbp))

/-- The alignment of the structure stays positive. -/
theorem raiseAlign_pos (h : 0 < s.maxAlign) : 0 < s.raiseAlign types f := by
  unfold LayoutState.raiseAlign
  split
  · exact fieldAlign_pos types f
  · exact h

theorem raiseAlign_lt (h : s.maxAlign < 2 ^ 64) : s.raiseAlign types f < 2 ^ 64 := by
  unfold LayoutState.raiseAlign
  split
  · exact fieldAlign_lt types f
  · exact h

theorem next_dvd (f : Field) : fieldAlign types f ∣ s.next .unbounded types f :=
  dvd_alignUp _ (fieldAlign_pos types f)

/-- A plain field is placed behind all the others. -/
theorem LayoutInv.placePlain (h : LayoutInv types s done) (hwidth : f.bitWidth = 0) :
    LayoutInv types (s.placePlain .unbounded types f).1 (done ++ [(s.placePlain .unbounded types f).2]) ∧
      s.unitEnd ≤ (s.placePlain .unbounded types f).1.unitEnd := by
  have hnext := h.le_next f
  have hfront := h.front_le
  refine ⟨⟨fun _ => rfl, fun _ ht => absurd ht (by simp [LayoutState.placePlain]), raiseAlign_pos h.align_pos, raiseAlign_lt h.align_lt, ?_,
    h.disjoint_push ?_⟩, ?_⟩
  · intro g hg
    rcases mem_append.mp hg with hg | hg
    · refine (h.placed g hg).mono (hnext.trans (Nat.le_add_right _ _)) ?_
      show s.front ≤ 8 * (s.next .unbounded types f + fieldSize types f)
      omega
    · rw [mem_singleton.mp hg]
      refine ⟨next_dvd f, fun hne => absurd hwidth hne, le_rfl, fun b hb => ?_⟩
      simp only [Field.bitRange, LayoutState.placePlain, hwidth, if_true, Set.mem_Ico] at hb
      show b < 8 * (s.next .unbounded types f + fieldSize types f)
      have : b < 8 * s.next .unbounded types f + 0 + 8 * fieldSize types f := hb.2
      omega
  · intro b hb
    simp only [Field.bitRange, LayoutState.placePlain, Set.mem_Ico] at hb
    omega
  · exact hnext.trans (Nat.le_add_right _ _)

/-- The storage unit that a bit-field goes to has room for it. -/
theorem LayoutInv.openUnit (h : LayoutInv types s done) (hwidth : f.bitWidth ≠ 0)
    (hfits : f.bitWidth.toNat ≤ fieldSize types f * 8) :
    ∃ t, f.type = some t ∧ (s.openUnit .unbounded types f).unitType = some t ∧
      (s.openUnit .unbounded types f).unitUsed + f.bitWidth.toNat ≤ (s.openUnit .unbounded types f).unitBits ∧
      LayoutInv types (s.openUnit .unbounded types f) done ∧
      s.unitEnd ≤ (s.openUnit .unbounded types f).unitEnd := by
  have hpos : 0 < f.bitWidth.toNat := Nat.pos_of_ne_zero fun hzero => hwidth (BitVec.eq_of_toNat_eq hzero)
  obtain ⟨t, htype⟩ : ∃ t, f.type = some t := by
    cases htype : f.type with
    | none => simp only [fieldSize, htype] at hfits; omega
    | some t => exact ⟨t, rfl⟩
  have hsize : fieldSize types f = (types t).size.toNat := by rw [fieldSize, htype]
  refine ⟨t, htype, ?_⟩
  by_cases hnew : s.newUnit .unbounded types f = true
  · -- a new unit, after everything that is laid out
    have hu : s.openUnit .unbounded types f = ⟨s.next .unbounded types f, s.raiseAlign types f,
        s.next .unbounded types f + fieldSize types f, fieldSize types f * 8, 0, f.type⟩ := if_pos hnew
    rw [hu]
    have hnext := h.le_next f
    have hfront := h.front_le
    refine ⟨htype, ?_, ⟨fun hn => ?_, fun t' ht' => ?_, raiseAlign_pos h.align_pos, raiseAlign_lt h.align_lt,
      fun g hg => (h.placed g hg).mono ?_ ?_, h.disjoint⟩, ?_⟩
    · simpa using hfits
    · simp [htype] at hn
    · have ht : t' = t := by simpa [htype] using ht'.symm
      refine ⟨by simp [ht, hsize], by simp [ht, hsize], Nat.zero_le _, fun g hg => ?_, fun b hlow hhigh => ?_,
        .inl rfl⟩
      · rw [show fieldAlign types g = fieldAlign types f by rw [fieldAlign, fieldAlign, hg, htype, ht]]
        exact next_dvd f
      · exact absurd hhigh (not_lt.mpr hlow)
    · exact hnext.trans (Nat.le_add_right _ _)
    · have hu : LayoutState.front ⟨s.next .unbounded types f, s.raiseAlign types f,
          s.next .unbounded types f + fieldSize types f, fieldSize types f * 8, 0, f.type⟩ =
          8 * s.next .unbounded types f := by simp [LayoutState.front, htype]
      omega
    · exact hnext.trans (Nat.le_add_right _ _)
  · -- the open one
    have hu : s.openUnit .unbounded types f = { s with maxAlign := s.raiseAlign types f } := if_neg hnew
    rw [hu]
    -- an open unit of the same type with room enough
    have hopen : ¬ (s.unitType = none ∨ s.unitType ≠ f.type ∨
        fieldSize types f * 8 < s.unitUsed + f.bitWidth.toNat) := fun hcon => hnew (decide_eq_true hcon)
    obtain ⟨-, hsame, hroom⟩ := not_or.mp hopen |>.imp_right not_or.mp
    rw [not_not] at hsame
    have hunit := h.opened t (hsame.trans htype)
    refine ⟨hsame.trans htype, ?_, ⟨h.closed, fun t' ht' => ?_, raiseAlign_pos h.align_pos,
      raiseAlign_lt h.align_lt, fun g hg => (h.placed g hg).mono le_rfl le_rfl, h.disjoint⟩, le_rfl⟩
    · rw [hunit.bits_eq, ← hsize]
      exact not_lt.mp hroom
    · obtain ⟨a, b, c, d, e, g⟩ := h.opened t' ht'
      exact ⟨a, b, c, d, e, g⟩

/-- Taking bits of the open unit. -/
theorem LayoutInv.takeBits {t : TypeId} (h : LayoutInv types s done) (hwidth : f.bitWidth ≠ 0)
    (htype : f.type = some t) (hopen : s.unitType = some t) (hroom : s.unitUsed + f.bitWidth.toNat ≤ s.unitBits) :
    LayoutInv types (s.takeBits .unbounded f).1 (done ++ [(s.takeBits .unbounded f).2]) ∧
      s.unitEnd = (s.takeBits .unbounded f).1.unitEnd := by
  have hunit := h.opened t hopen
  have hsize : fieldSize types f = (types t).size.toNat := by rw [fieldSize, htype]
  have hend := hunit.end_eq
  have hbits := hunit.bits_eq
  have hfront : s.front = 8 * s.offset + s.unitUsed := by simp [LayoutState.front, hopen]
  have hrange : ∀ b, b ∈ (s.takeBits .unbounded f).2.bitRange types ↔
      8 * s.offset + s.unitUsed ≤ b ∧ b < 8 * s.offset + (s.unitUsed + f.bitWidth.toNat) := by
    intro b
    simp only [Field.bitRange, LayoutState.takeBits, hwidth, if_false, Set.mem_Ico, Arith.unbounded_bits]
    omega
  have hstop : s.unitEnd = (s.takeBits .unbounded f).1.unitEnd := by
    simp only [LayoutState.takeBits]
    split <;> rfl
  -- a unit that is filled is closed, one with bits left stays open
  have hfull : s.unitUsed + f.bitWidth.toNat = s.unitBits → (s.takeBits .unbounded f).1 =
      { s with offset := s.unitEnd, unitType := none, unitUsed := 0 } := fun hfull => if_pos hfull
  have hpart : s.unitUsed + f.bitWidth.toNat ≠ s.unitBits → (s.takeBits .unbounded f).1 =
      { s with unitUsed := s.unitUsed + f.bitWidth.toNat } := fun hpart => if_neg hpart
  have hafter : (s.takeBits .unbounded f).1.front = 8 * s.offset + (s.unitUsed + f.bitWidth.toNat) := by
    by_cases hall : s.unitUsed + f.bitWidth.toNat = s.unitBits
    · rw [hfull hall]
      simp only [LayoutState.front, if_true]
      omega
    · rw [hpart hall]
      simp [LayoutState.front, hopen]
  refine ⟨⟨?_, ?_, ?_, ?_, ?_, h.disjoint_push fun b hb => hfront ▸ ((hrange b).mp hb).1⟩, hstop⟩
  · simp only [LayoutState.takeBits]
    split
    · exact fun _ => rfl
    · simp [hopen]
  -- the unit is covered by the fields it held before and by the bits just taken
  · intro t' ht'
    by_cases hall : s.unitUsed + f.bitWidth.toNat = s.unitBits
    · rw [hfull hall] at ht'
      simp at ht'
    · rw [hpart hall] at ht' ⊢
      have ht : t' = t := by simpa [hopen] using ht'.symm
      rw [ht]
      refine ⟨hend, hbits, hroom, hunit.aligned, fun b hlow hhigh => ?_, .inr ⟨_, mem_append_right _
        (mem_singleton_self _), rfl⟩⟩
      rcases lt_or_ge b (8 * s.offset + s.unitUsed) with hb | hb
      · obtain ⟨g, hg, hbg⟩ := hunit.covered b hlow hb
        exact ⟨g, mem_append_left _ hg, hbg⟩
      · exact ⟨_, mem_append_right _ (mem_singleton_self _), (hrange b).mpr ⟨hb, hhigh⟩⟩
  · simp only [LayoutState.takeBits]
    split <;> exact h.align_pos
  · simp only [LayoutState.takeBits]
    split <;> exact h.align_lt
  · intro g hg
    rcases mem_append.mp hg with hg | hg
    · exact (h.placed g hg).mono hstop.le (by omega)
    · rw [mem_singleton.mp hg]
      refine ⟨hunit.aligned _ htype, fun _ => ?_, ?_, fun b hb => hafter ▸ ((hrange b).mp hb).2⟩
      · show s.unitUsed + f.bitWidth.toNat ≤ 8 * fieldSize types f
        omega
      · rw [← hstop, hend]
        show s.offset + fieldSize types f ≤ s.offset + (types t).size.toNat
        omega

/-- What one round of the loop over unbounded numbers keeps. -/
theorem LayoutInv.step (h : LayoutInv types s done) (hstep : s.step .unbounded types f = some (s', p)) :
    LayoutInv types s' (done ++ [p]) ∧ s.unitEnd ≤ s'.unitEnd := by
  unfold LayoutState.step at hstep
  by_cases hwidth : f.bitWidth = 0
  · rw [if_pos hwidth] at hstep
    obtain ⟨hinv, hle⟩ := h.placePlain hwidth
    rw [some.inj hstep] at hinv hle
    exact ⟨hinv, hle⟩
  · rw [if_neg hwidth] at hstep
    dsimp only at hstep
    split at hstep
    · cases hstep
    · rename_i hfits
      obtain ⟨t, htype, hopen, hroom, hinv, hle⟩ := h.openUnit hwidth (not_lt.mp (not_or.mp hfits).2)
      obtain ⟨hinv, heq⟩ := hinv.takeBits hwidth htype hopen hroom
      rw [some.inj hstep] at hinv heq
      exact ⟨hinv, hle.trans heq.le⟩

/-! ## All fields -/

theorem LayoutInv.start (types : Types) : LayoutInv types {} [] :=
  ⟨fun _ => rfl, fun _ h => by simp at h, Nat.one_pos, by norm_num, fun _ h => absurd h not_mem_nil,
    Pairwise.nil⟩

/-- What the loop over unbounded numbers keeps. -/
theorem LayoutInv.run (h : LayoutInv types s done)
    (hrun : layoutFrom .unbounded types s done fields = some (s', done')) :
    LayoutInv types s' done' ∧ s.unitEnd ≤ s'.unitEnd ∧ done <+: done' := by
  induction fields generalizing s done with
  | nil =>
    obtain ⟨rfl, rfl⟩ := Prod.mk.inj (some.inj hrun)
    exact ⟨h, le_rfl, prefix_rfl⟩
  | cons f fields ih =>
    obtain ⟨⟨s₁, p⟩, hstep, hrest⟩ := bind_eq_some_iff.mp hrun
    obtain ⟨hinv, hle⟩ := h.step hstep
    obtain ⟨hinv', hle', hbegins⟩ := ih hinv hrest
    exact ⟨hinv', hle.trans hle', (prefix_append _ _).trans hbegins⟩

/-- Where no sum wraps, the loop does what it does over unbounded numbers, up to the width of the stored bit
offsets. -/
theorem layoutFrom_of_sums (done : List Field) (h : ∀ n ∈ layoutSums types s fields, n < 2 ^ 64) :
    layoutFrom .machine types s (done.map Field.stored) fields =
      (layoutFrom .unbounded types s done fields).map (Prod.map id (map Field.stored)) := by
  induction fields generalizing s done with
  | nil => rfl
  | cons f fields ih =>
    have hstep : s.step .machine types f = (s.step .unbounded types f).map (Prod.map id Field.stored) :=
      step_of_sums fun n hn => h n (mem_append_left _ hn)
    cases hunb : s.step .unbounded types f with
    | none => simp [layoutFrom, hstep, hunb]
    | some sp =>
      obtain ⟨s₁, p⟩ := sp
      rw [hunb] at hstep
      have hrest : ∀ n ∈ layoutSums types s₁ fields, n < 2 ^ 64 := fun n hn =>
        h n (mem_append_right _ (by rw [hstep]; exact hn))
      simp only [layoutFrom, hstep, hunb, map_some, bind_some, Prod.map, id]
      rw [← ih _ hrest, map_append, map_singleton]

/-- Where no sum wraps, neither do the products that are the bits of the storage units. -/
theorem storage_of_sums {r : LayoutState × List Field} (h : ∀ n ∈ layoutSums types s fields, n < 2 ^ 64)
    (hrun : layoutFrom .machine types s done fields = some r) :
    ∀ f ∈ fields, f.bitWidth ≠ 0 → fieldSize types f * 8 < 2 ^ 64 := by
  induction fields generalizing s done with
  | nil => exact fun _ h => absurd h not_mem_nil
  | cons f fields ih =>
    obtain ⟨⟨s₁, p⟩, hstep, hrest⟩ := bind_eq_some_iff.mp hrun
    intro g hg hwidth
    rcases mem_cons.mp hg with rfl | hg
    · exact ((sums_lt_iff hwidth).mp fun n hn => h n (mem_append_left _ hn)).storage
    · exact ih (fun n hn => h n (mem_append_right _ (by rw [hstep]; exact hn))) hrest g hg hwidth

/-- The total of a good state is past the end of every unit. -/
theorem LayoutInv.stop_eq (h : LayoutInv types s done) : s.stop = s.unitEnd := by
  unfold LayoutState.stop
  split
  · exact h.closed ‹_›
  · rfl

/-- The sums of a place fit when its end does. -/
theorem placeSums_lt (hnext : s.next .unbounded types f + fieldSize types f < 2 ^ 64) :
    ∀ n ∈ s.placeSums types f, n < 2 ^ 64 := by
  intro n hn
  have hsums : ∀ m ∈ alignUpSums (if s.unitEnd < s.offset then s.offset else s.unitEnd) (fieldAlign types f),
      m < 2 ^ 64 := by
    intro m hm
    have hle : m ≤ s.next .unbounded types f := alignUpSums_le hm
    omega
  rcases mem_append.mp hn with hn | hn
  · exact hsums n hn
  · rw [mem_singleton.mp hn, show s.next .machine types f = s.next .unbounded types f from
      alignUp_of_sums hsums]
    exact hnext

/-- A round whose end is in `size_t` makes no sum that is not, if the bit offsets so far are small. -/
theorem LayoutInv.sums_lt (h : LayoutInv types s done) (hstep : s.step .unbounded types f = some (s', p))
    (hend : s'.unitEnd < 2 ^ 64) (hstorage : f.bitWidth ≠ 0 → fieldSize types f * 8 < 2 ^ 64)
    (hdone : ∀ g ∈ done, g.bitOffset < 2 ^ 32) : ∀ n ∈ s.sums types f, n < 2 ^ 64 := by
  unfold LayoutState.step at hstep
  by_cases hwidth : f.bitWidth = 0
  · rw [if_pos hwidth] at hstep
    have hs : (s.placePlain .unbounded types f).1 = s' := by rw [some.inj hstep]
    rw [LayoutState.sums, if_pos hwidth]
    apply placeSums_lt
    rw [← hs] at hend
    exact hend
  · rw [if_neg hwidth] at hstep
    dsimp only at hstep
    split at hstep
    · cases hstep
    · have hs : ((s.openUnit .unbounded types f).takeBits .unbounded f).1 = s' := by rw [some.inj hstep]
      have hstop : (s.openUnit .unbounded types f).unitEnd = s'.unitEnd := by
        rw [← hs, LayoutState.takeBits]
        split <;> rfl
      -- the bits in use are those of the last field of the unit, so they are few
      have hused : s.unitType ≠ none → s.unitUsed < 2 ^ 33 := by
        intro hopen
        obtain ⟨t, ht⟩ := ne_none_iff_exists'.mp hopen
        rcases (h.opened t ht).last with hzero | ⟨g, hg, hlast⟩
        · omega
        · have := hdone g hg
          omega
      have hcheck : s.unitType ≠ none → s.unitType = f.type → s.unitUsed + f.bitWidth.toNat < 2 ^ 64 := by
        intro hopen _
        have := hused hopen
        omega
      have hplace : s.newUnit .unbounded types f = true → ∀ n ∈ s.placeSums types f, n < 2 ^ 64 := by
        intro hnew
        rw [LayoutState.openUnit, if_pos hnew] at hstop
        exact placeSums_lt (hstop.trans_lt hend)
      refine (sums_lt_iff hwidth).mpr ⟨hstorage hwidth, hcheck, fun hnew => hplace ?_, ?_⟩
      · rw [← hnew, newUnit_of_sums (hstorage hwidth) hcheck]
      · rw [openUnit_of_sums (hstorage hwidth) hcheck hplace, LayoutState.openUnit]
        split
        · show 0 + f.bitWidth.toNat < 2 ^ 64
          omega
        · rename_i hold
          have hopen : s.unitType ≠ none := by
            intro hnone
            exact hold (by simp [LayoutState.newUnit, hnone])
          have := hused hopen
          show s.unitUsed + f.bitWidth.toNat < 2 ^ 64
          omega

/-- A layout that ends in `size_t` makes no sum that is not. -/
theorem LayoutInv.layoutSums_lt (h : LayoutInv types s done)
    (hrun : layoutFrom .unbounded types s done fields = some (s', done')) (htotal : s'.total .unbounded < 2 ^ 64)
    (hstorage : ∀ f ∈ fields, f.bitWidth ≠ 0 → fieldSize types f * 8 < 2 ^ 64)
    (hbits : ∀ g ∈ done', g.bitOffset < 2 ^ 32) : ∀ n ∈ layoutSums types s fields, n < 2 ^ 64 := by
  induction fields generalizing s done with
  | nil =>
    obtain ⟨rfl, rfl⟩ := Prod.mk.inj (some.inj hrun)
    exact fun n hn => (alignUpSums_le hn).trans_lt htotal
  | cons f fields ih =>
    obtain ⟨⟨s₁, p⟩, hstep, hrest⟩ := bind_eq_some_iff.mp hrun
    obtain ⟨hinv, hle⟩ := h.step hstep
    obtain ⟨hinv', hle', hbegins⟩ := hinv.run hrest
    have hend : s'.unitEnd ≤ s'.total .unbounded := by
      rw [← hinv'.stop_eq]
      exact le_alignUp _ _
    have hsums := h.sums_lt hstep (by omega) (hstorage f mem_cons_self) fun g hg =>
      hbits g (hbegins.subset (mem_append_left _ hg))
    intro n hn
    rcases mem_append.mp hn with hn | hn
    · exact hsums n hn
    · rw [step_of_sums hsums, hstep] at hn
      exact ih hinv hrest (fun g hg => hstorage g (mem_cons_of_mem _ hg)) n hn

/-- The bit range of a field as it is stored starts inside its unit. -/
theorem LayoutInv.bitOffset_lt (h : LayoutInv types s done) (hstep : s.step .unbounded types f = some (s', p))
    (hdisjoint : ∀ g ∈ done, Disjoint (g.bitRange types) (p.stored.bitRange types)) : p.bitOffset < 2 ^ 32 := by
  unfold LayoutState.step at hstep
  by_cases hwidth : f.bitWidth = 0
  · rw [if_pos hwidth] at hstep
    rw [← (Prod.mk.inj (some.inj hstep)).2]
    exact Nat.two_pow_pos 32
  · rw [if_neg hwidth] at hstep
    dsimp only at hstep
    split at hstep
    · cases hstep
    · rename_i hfits
      obtain ⟨t, htype, hopen, hroom, hinv, -⟩ := h.openUnit hwidth (not_lt.mp (not_or.mp hfits).2)
      have hp : p = { f with
          byteOffset := (s.openUnit .unbounded types f).offset
          bitOffset := (s.openUnit .unbounded types f).unitUsed } :=
        (Prod.mk.inj (some.inj hstep)).2.symm
      by_contra hlarge
      rw [hp] at hlarge hdisjoint
      have hunit := hinv.opened t hopen
      have hpos : 0 < f.bitWidth.toNat := Nat.pos_of_ne_zero fun hzero => hwidth (BitVec.eq_of_toNat_eq hzero)
      -- the first stored bit is one that a field of the unit already has
      obtain ⟨g, hg, hbg⟩ := hunit.covered (8 * (s.openUnit .unbounded types f).offset +
        (s.openUnit .unbounded types f).unitUsed % 2 ^ 32) (Nat.le_add_right _ _) (by
          simp only [not_lt] at hlarge
          omega)
      refine Set.disjoint_left.mp (hdisjoint g hg) hbg ?_
      simp only [Field.bitRange, Field.stored, hwidth, if_false, Set.mem_Ico]
      omega

/-- Where the stored fields are disjoint, no bit offset was cut off. -/
theorem LayoutInv.bitOffsets_lt (h : LayoutInv types s done)
    (hrun : layoutFrom .unbounded types s done fields = some (s', done')) (hdone : ∀ g ∈ done, g.bitOffset < 2 ^ 32)
    (hdisjoint : (done'.map Field.stored).Pairwise fun f g => Disjoint (f.bitRange types) (g.bitRange types)) :
    ∀ g ∈ done', g.bitOffset < 2 ^ 32 := by
  induction fields generalizing s done with
  | nil =>
    obtain ⟨rfl, rfl⟩ := Prod.mk.inj (some.inj hrun)
    exact hdone
  | cons f fields ih =>
    obtain ⟨⟨s₁, p⟩, hstep, hrest⟩ := bind_eq_some_iff.mp hrun
    obtain ⟨hinv, -⟩ := h.step hstep
    obtain ⟨rest, hsplit⟩ := (hinv.run hrest).2.2
    rw [← hsplit, map_append, map_append] at hdisjoint
    have hpush := (pairwise_append.mp (pairwise_append.mp hdisjoint).1).2.2
    have hp : p.bitOffset < 2 ^ 32 := h.bitOffset_lt hstep fun g hg => by
      have := hpush g.stored (List.mem_map_of_mem hg) p.stored (by simp)
      rwa [Field.stored_of_lt (hdone g hg)] at this
    refine ih hinv hrest fun g hg => ?_
    rcases mem_append.mp hg with hg | hg
    · exact hdone g hg
    · rw [mem_singleton.mp hg]
      exact hp

/-! ## The struct -/

/-- A layout whose bit offsets fit is stored unchanged. -/
theorem map_stored_of_lt (h : ∀ g ∈ done, g.bitOffset < 2 ^ 32) : done.map Field.stored = done := by
  conv_rhs => rw [← List.map_id done]
  exact map_congr_left fun g hg => Field.stored_of_lt (h g hg)

/-- The last sum is that of the rounding up of the total. -/
theorem total_of_sums (h : ∀ n ∈ layoutSums types s fields, n < 2 ^ 64)
    (hrun : layoutFrom .machine types s done fields = some (s', done')) :
    ∀ n ∈ alignUpSums s'.stop s'.maxAlign, n < 2 ^ 64 := by
  induction fields generalizing s done with
  | nil =>
    obtain ⟨rfl, -⟩ := Prod.mk.inj (some.inj hrun)
    exact h
  | cons f fields ih =>
    obtain ⟨⟨s₁, p⟩, hstep, hrest⟩ := bind_eq_some_iff.mp hrun
    exact ih (fun n hn => h n (mem_append_right _ (by rw [hstep]; exact hn))) hrest

/-- On the machine the end stays below `2 ^ 64`, wrapped or not. -/
theorem unitEnd_lt_of_step (h : s.unitEnd < 2 ^ 64) (hstep : s.step .machine types f = some (s', p)) :
    s'.unitEnd < 2 ^ 64 := by
  have hmod : ∀ n, Arith.machine.size n < 2 ^ 64 := fun n => Nat.mod_lt _ (Nat.two_pow_pos 64)
  unfold LayoutState.step at hstep
  split at hstep
  · rw [← (Prod.mk.inj (some.inj hstep)).1]
    exact hmod _
  · dsimp only at hstep
    split at hstep
    · cases hstep
    · rw [← (Prod.mk.inj (some.inj hstep)).1]
      have hopen : (s.openUnit .machine types f).unitEnd < 2 ^ 64 := by
        unfold LayoutState.openUnit
        split
        · exact hmod _
        · exact h
      split <;> exact hopen

/-- So it does over all the fields. -/
theorem unitEnd_lt (h : s.unitEnd < 2 ^ 64) (hrun : layoutFrom .machine types s done fields = some (s', done')) :
    s'.unitEnd < 2 ^ 64 := by
  induction fields generalizing s done with
  | nil =>
    obtain ⟨rfl, -⟩ := Prod.mk.inj (some.inj hrun)
    exact h
  | cons f fields ih =>
    obtain ⟨⟨s₁, p⟩, hstep, hrest⟩ := bind_eq_some_iff.mp hrun
    exact ih (unitEnd_lt_of_step h hstep) hrest

/-- An alignment whose sums fit has a result that fits. -/
theorem alignUp_unbounded_lt {value alignment : ℕ} (hvalue : value < 2 ^ 64)
    (h : ∀ n ∈ alignUpSums value alignment, n < 2 ^ 64) : alignUp .unbounded value alignment < 2 ^ 64 := by
  rw [← alignUp_of_sums h]
  unfold alignUp
  split
  · exact hvalue
  · dsimp only
    split
    · exact Nat.mod_lt _ (Nat.two_pow_pos 64)
    · exact hvalue

/-- A state of the loop that ends in `size_t` is a good layout. -/
theorem LayoutInv.layoutOk (h : LayoutInv types s done) (htotal : s.total .unbounded < 2 ^ 64) (type : Ty) :
    LayoutOk types { type with
      fields := done
      size := BitVec.ofNat 64 (s.total .unbounded)
      alignment := if s.maxAlign ≠ 0 then BitVec.ofNat 64 s.maxAlign else 1 } := by
  have hsize : (BitVec.ofNat 64 (s.total .unbounded)).toNat = s.total .unbounded := by
    rw [BitVec.toNat_ofNat, Nat.mod_eq_of_lt htotal]
  have halign : (if s.maxAlign ≠ 0 then BitVec.ofNat 64 s.maxAlign else 1).toNat = s.maxAlign := by
    rw [if_pos h.align_pos.ne', BitVec.toNat_ofNat, Nat.mod_eq_of_lt h.align_lt]
  refine ⟨fun g hg _ => (h.placed g hg).aligned, h.disjoint,
    fun g hg hwidth => ⟨(h.placed g hg).aligned, (h.placed g hg).inUnit hwidth⟩, fun g hg => ?_, ?_⟩
  · show g.byteOffset + fieldSize types g ≤ (BitVec.ofNat 64 (s.total .unbounded)).toNat
    rw [hsize]
    refine (h.placed g hg).within.trans ?_
    rw [← h.stop_eq]
    exact le_alignUp _ _
  · show (if s.maxAlign ≠ 0 then BitVec.ofNat 64 s.maxAlign else 1).toNat ∣
      (BitVec.ofNat 64 (s.total .unbounded)).toNat
    rw [hsize, halign]
    exact dvd_alignUp _ h.align_pos

/-- The layout of a struct is right exactly when it fits in `size_t`. -/
theorem computeStructLayout_iff {type type' : Ty} (h : computeStructLayout types type = some type') :
    LayoutOk types type' ∧ NoWrap types type.fields ↔ FitsSizeT types type.fields := by
  obtain ⟨⟨s, placed⟩, hrun, rfl⟩ := map_eq_some_iff.mp h
  have hstart := LayoutInv.start types
  constructor
  · rintro ⟨hok, hsums⟩
    have hagree := layoutFrom_of_sums [] hsums
    rw [map_nil, hrun] at hagree
    obtain ⟨⟨s₁, placed₁⟩, hunb, heq⟩ := map_eq_some_iff.mp hagree.symm
    obtain ⟨rfl, rfl⟩ := Prod.mk.inj heq
    have hinv := (hstart.run hunb).1
    have hend : s₁.unitEnd < 2 ^ 64 := unitEnd_lt (Nat.two_pow_pos 64) hrun
    refine ⟨storage_of_sums hsums hrun, s₁, placed₁, hunb, ?_, ?_⟩
    · exact alignUp_unbounded_lt (hinv.stop_eq ▸ hend) (total_of_sums hsums hrun)
    · exact hstart.bitOffsets_lt hunb (fun _ h => absurd h not_mem_nil) hok.disjoint
  · rintro ⟨hstorage, s₁, placed₁, hunb, htotal, hbits⟩
    have hinv := (hstart.run hunb).1
    have hsums : NoWrap types type.fields := hstart.layoutSums_lt hunb htotal hstorage hbits
    have hagree := layoutFrom_of_sums [] hsums
    rw [map_nil, hrun, hunb, map_some, Prod.map, map_stored_of_lt hbits] at hagree
    obtain ⟨rfl, rfl⟩ := Prod.mk.inj (some.inj hagree)
    have htotal_eq : s.total .machine = s.total .unbounded := alignUp_of_sums (total_of_sums hsums hrun)
    refine ⟨?_, hsums⟩
    have hok := hinv.layoutOk htotal type
    rw [← htotal_eq] at hok
    exact hok

/-- `type_compute_layout` on a struct gives its fields room of their own, and wraps no sum, exactly for the
structs that fit in `size_t`. -/
theorem typeComputeLayout_struct_iff {depth : ℕ} {types types' : Types} {id : TypeId}
    (hkind : (types id).kind = .struct ∨ (types id).kind = .string)
    (h : typeComputeLayout depth types id = some types') :
    LayoutOk types (types' id) ∧ NoWrap types (types id).fields ↔ FitsSizeT types (types id).fields := by
  cases depth with
  | zero => cases h
  | succ depth =>
    have h : (computeStructLayout types (types id)).map (Function.update types id) = some types' := by
      rcases hkind with hkind | hkind <;> simpa only [typeComputeLayout, hkind] using h
    obtain ⟨type', hlayout, rfl⟩ := Option.map_eq_some_iff.mp h
    rw [Function.update_self]
    exact computeStructLayout_iff hlayout

/-- A table of types: a word, a half word, an array of `2 ^ 63` bytes and a struct of some fields. -/
def sampleTypes (fields : List Field) : Types
  | 0 => { kind := .other, size := 4, alignment := 4 }
  | 1 => { kind := .other, size := 2, alignment := 2 }
  | 2 => { kind := .array, size := 2 ^ 63, alignment := 1 }
  | _ => { kind := .struct, fields }

/-- Two bit-fields in one unit, one that opens the next, and a plain field after them. -/
theorem typeComputeLayout_bitFields :
    let types := sampleTypes [⟨some 0, 3, 0, 0⟩, ⟨some 0, 20, 0, 0⟩, ⟨some 0, 12, 0, 0⟩, ⟨some 1, 0, 0, 0⟩]
    ∃ types', typeComputeLayout 1 types 3 = some types' ∧
      (LayoutOk types (types' 3) ∧ NoWrap types (types 3).fields ↔ FitsSizeT types (types 3).fields) := by
  obtain ⟨types', h⟩ := Option.isSome_iff_exists.mp (show (typeComputeLayout 1
    (sampleTypes [⟨some 0, 3, 0, 0⟩, ⟨some 0, 20, 0, 0⟩, ⟨some 0, 12, 0, 0⟩, ⟨some 1, 0, 0, 0⟩]) 3).isSome = true
    by decide)
  exact ⟨types', h, typeComputeLayout_struct_iff (.inl rfl) h⟩

/-- Two arrays of half the address space and a byte: the sum of the sizes is zero, and the last field lies in
the first. -/
theorem typeComputeLayout_wraps :
    ¬ ∀ (depth : ℕ) (types types' : Types) (id : TypeId), (types id).kind = .struct →
      typeComputeLayout depth types id = some types' →
      LayoutOk types (types' id) ∧ NoWrap types (types id).fields := by
  intro h
  let types := sampleTypes [⟨some 2, 0, 0, 0⟩, ⟨some 2, 0, 0, 0⟩, ⟨some 1, 0, 0, 0⟩]
  have hrun : (typeComputeLayout 1 types 3).map (fun types => ((types 3).fields, (types 3).size)) =
      some ([⟨some 2, 0, 0, 0⟩, ⟨some 2, 0, 2 ^ 63, 0⟩, ⟨some 1, 0, 0, 0⟩], 2) := by decide +kernel
  obtain ⟨types', hlayout, heq⟩ := Option.map_eq_some_iff.mp hrun
  obtain ⟨hfields, hsize⟩ := Prod.mk.inj heq
  have hwithin := (h 1 types types' 3 rfl hlayout).1.within ⟨some 2, 0, 2 ^ 63, 0⟩ (by simp [hfields])
  rw [hsize] at hwithin
  exact absurd hwithin (by decide +kernel)

end Mettle.Semantic

import Mettle.Linker.ElfImageParts

/-!
# The parts of one segment

In a segment whose parts are packed every part is where the unbounded walk puts it, behind the one before.
The other way round, parts that are aligned, lie apart and do not wrap around are packed: a start that is
aligned in the file and in memory cannot pass `2 ^ 64`, for that is aligned as well.
-/

namespace Mettle.Linker

open Mettle.Lib List BitVec

variable {displacement : ℤ} {cursor front last : ℕ} {p x : ElfImagePart} {ps : List ElfImagePart}

/-- A placed part is well formed. -/
theorem ElfImagePart.Wf.at (h : p.Wf) (displacement : ℤ) (start : ℕ) : (p.at displacement start).Wf :=
  ⟨h.file_le, h.memory_pos, h.alignment, h.tls⟩

/-- What is placed is the parts, but for their places. -/
theorem forall_placedAt {P : ElfImagePart → Prop} (hat : ∀ p ∈ ps, ∀ start, P (p.at displacement start)) :
    ∀ x ∈ placedAt displacement cursor ps, P x := by
  induction ps generalizing cursor with
  | nil => exact fun x hx => absurd hx not_mem_nil
  | cons p ps ih =>
    intro x hx
    rcases mem_cons.mp hx with rfl | hx
    · exact hat p (.head _) _
    · exact ih (fun q hq => hat q (.tail _ hq)) x hx

/-- All the parts are placed. -/
theorem length_placedAt (displacement : ℤ) (cursor : ℕ) (ps : List ElfImagePart) :
    (placedAt displacement cursor ps).length = ps.length := by
  induction ps generalizing cursor with
  | nil => rfl
  | cons p ps ih => exact congrArg Nat.succ (ih _)

/-- An integer that fits is not wrapped. -/
theorem toNat_ofInt_of_lt {n : ℤ} (hlow : 0 ≤ n) (hhigh : n < 2 ^ 64) : ((BitVec.ofInt 64 n).toNat : ℤ) = n := by
  norm_num at *
  omega

theorem toNat_ofNat_of_lt {n : ℕ} (h : n < 2 ^ 64) : (BitVec.ofNat 64 n).toNat = n := by
  rw [toNat_ofNat, Nat.mod_eq_of_lt h]

/-! ## From the segment to its packing -/

/-- What a valid map says of a part with memory of its own. -/
structure ElfImagePart.Loaded (displacement : ℤ) (x : ElfImagePart) : Prop where
  aligned : x.alignment.toNat ∣ x.virtualAddress.toNat
  pos : 0 < x.virtualAddress.toNat
  below : x.virtualAddress.toNat + x.memorySize.toNat ≤ 2 ^ 64
  file : x.fileSize ≠ 0 → (x.virtualAddress.toNat : ℤ) = displacement + x.fileOffset.toNat ∧
    x.fileOffset.toNat + x.fileSize.toNat ≤ 2 ^ 64

theorem cast_dvd_two_pow_64 (hwf : p.Wf) : (p.alignment.toNat : ℤ) ∣ 2 ^ 64 := by
  exact_mod_cast Int.natCast_dvd_natCast.mpr (dvd_two_pow_64 hwf.alignment)

/-- An aligned address of a part makes the displacement a multiple of the alignment. -/
theorem dvd_displacement_iff (hwf : p.Wf) (cursor : ℕ) :
    p.alignment.toNat ∣ (BitVec.ofInt 64 (displacement + roundUp cursor p.alignment.toNat)).toNat ↔
      (p.alignment.toNat : ℤ) ∣ displacement := by
  have hnonneg : 0 ≤ (displacement + roundUp cursor p.alignment.toNat) % 2 ^ 64 := Int.emod_nonneg _ (by decide)
  have hstart : (p.alignment.toNat : ℤ) ∣ (roundUp cursor p.alignment.toNat : ℕ) :=
    Int.natCast_dvd_natCast.mpr (dvd_roundUp _ _)
  rw [← Int.natCast_dvd_natCast, toNat_ofInt, show ((2 ^ 64 : ℕ) : ℤ) = 2 ^ 64 by norm_num,
    Int.toNat_of_nonneg hnonneg]
  exact (EuclideanDomain.dvd_mod_iff (cast_dvd_two_pow_64 hwf)).trans (dvd_add_left hstart)

/-- A start behind a cursor below `2 ^ 64` is not beyond it. -/
theorem start_le (hwf : p.Wf) (hdvd : (p.alignment.toNat : ℤ) ∣ displacement)
    (hcursor : displacement + cursor ≤ 2 ^ 64) :
    displacement + roundUp cursor p.alignment.toNat ≤ 2 ^ 64 := by
  have hpos := alignment_pos hwf.alignment
  obtain ⟨room, hroom⟩ := Int.eq_ofNat_of_zero_le (a := 2 ^ 64 - displacement) (by omega)
  have hunits : p.alignment.toNat ∣ room := by
    apply Int.natCast_dvd_natCast.mp
    exact hroom ▸ dvd_sub (cast_dvd_two_pow_64 hwf) hdvd
  have hle := roundUp_le hpos hunits (n := cursor) (by omega)
  omega

/-- The other parts lie outside of `[low, high)`. -/
def Outside (low high : ℤ) (x : ElfImagePart) : Prop :=
  high ≤ x.virtualAddress.toNat ∨ x.virtualAddress.toNat + x.memorySize.toNat ≤ low

/-- Parts that are all loaded inside the segment are packed. -/
theorem packed_of_loaded (hwf : ∀ p ∈ ps, p.Wf) {prev : ℕ} (hlow : 0 ≤ displacement + cursor)
    (hhigh : displacement + cursor ≤ 2 ^ 64) (hfront : displacement + front ≤ 2 ^ 64) (hprev : prev ≤ cursor)
    (hloaded : ∀ x ∈ placedAt displacement cursor ps, x.Loaded displacement)
    (hout : ∀ x ∈ placedAt displacement cursor ps, Outside (displacement + prev) (displacement + front) x)
    (hpair : (placedAt displacement cursor ps).Pairwise fun x y =>
      Outside x.virtualAddress.toNat (x.virtualAddress.toNat + x.memorySize.toNat) y) :
    Packed displacement cursor front ps ∧ displacement + memoryStop cursor front ps ≤ 2 ^ 64 := by
  induction ps generalizing cursor front prev with
  | nil => exact ⟨trivial, hfront⟩
  | cons p ps ih =>
    have hp := hwf p mem_cons_self
    rw [placedAt] at hloaded hout hpair
    obtain ⟨hfirst, hpair⟩ := pairwise_cons.mp hpair
    have hhere := hloaded _ mem_cons_self
    have hdvd := (dvd_displacement_iff hp cursor).mp hhere.aligned
    have hstart := start_le hp hdvd hhigh
    have hcursor : cursor ≤ roundUp cursor p.alignment.toNat := le_roundUp (alignment_pos hp.alignment)
    rw [Packed, memoryStop]
    generalize roundUp cursor p.alignment.toNat = start at *
    -- the address `2 ^ 64` would be the address zero
    have hne : displacement + start ≠ 2 ^ 64 := by
      intro heq
      have hpos : 0 < (BitVec.ofInt 64 (displacement + start)).toNat := hhere.pos
      rw [heq] at hpos
      exact absurd hpos (by decide)
    have haddress : ((p.at displacement start).virtualAddress.toNat : ℤ) = displacement + start :=
      toNat_ofInt_of_lt (by omega) (by omega)
    have hbelow := hhere.below
    have hmemory : (p.at displacement start).memorySize = p.memorySize := rfl
    have hmemory_pos := hp.memory_pos
    have hfile_le := hp.file_le
    rw [hmemory] at hbelow
    have hfits : front ≤ start := by
      rcases hout _ (.head _) with habove | hbefore
      · omega
      · rw [hmemory] at hbefore
        omega
    have hfile : p.fileSize ≠ 0 → start + p.fileSize.toNat ≤ 2 ^ 64 := by
      intro hne
      obtain ⟨hoffset, hend⟩ := hhere.file hne
      have hsame : (p.at displacement start).fileSize = p.fileSize := rfl
      rw [hsame] at hend
      omega
    have hrest : Packed displacement (start + p.fileSize.toNat) (start + p.memorySize.toNat) ps ∧
        displacement + memoryStop (start + p.fileSize.toNat) (start + p.memorySize.toNat) ps ≤ 2 ^ 64 := by
      refine ih (fun q hq => hwf q (.tail _ hq)) (by omega) (by omega) (by omega)
        (show start ≤ _ by omega) (fun x hx => hloaded x (.tail _ hx)) (fun x hx => ?_) hpair
      have hout := hfirst x hx
      rw [hmemory, haddress] at hout
      rw [Nat.cast_add, ← add_assoc]
      exact hout
    exact ⟨⟨hdvd, hfits, hfile, hrest.1⟩, hrest.2⟩

/-! ## From the packing to the segment -/

/-- The memory of the segment only grows. -/
theorem le_memoryStop (hwf : ∀ p ∈ ps, p.Wf) (hcursor : cursor ≤ front) (h : Packed displacement cursor front ps) :
    front ≤ memoryStop cursor front ps := by
  induction ps generalizing cursor front with
  | nil => exact le_rfl
  | cons p ps ih =>
    obtain ⟨-, hfront, -, hrest⟩ := h
    have hle := ih (fun q hq => hwf q (.tail _ hq))
      (Nat.add_le_add_left (hwf p (.head _)).file_le _) hrest
    exact (hfront.trans (Nat.le_add_right _ _)).trans hle

/-- The file does not end behind the memory. -/
theorem fileStop_le (hwf : ∀ p ∈ ps, p.Wf) (hcursor : cursor ≤ front) :
    fileStop cursor ps ≤ memoryStop cursor front ps := by
  induction ps generalizing cursor front with
  | nil => exact hcursor
  | cons p ps ih =>
    exact ih (fun q hq => hwf q (.tail _ hq))
      (Nat.add_le_add_left (hwf p (.head _)).file_le _)

theorem le_fileStop (cursor : ℕ) (hwf : ∀ p ∈ ps, p.Wf) : cursor ≤ fileStop cursor ps := by
  induction ps generalizing cursor with
  | nil => exact le_rfl
  | cons p ps ih =>
    have hle := le_roundUp (n := cursor) (alignment_pos (hwf p (.head _)).alignment)
    exact (hle.trans (Nat.le_add_right _ _)).trans (ih _ fun q hq => hwf q (.tail _ hq))

/-- Where the file bytes of the last part with any end. -/
def fileEnd : ℕ → ℕ → List ElfImagePart → ℕ
  | _, last, [] => last
  | cursor, last, p :: ps =>
    let start := roundUp cursor p.alignment.toNat
    fileEnd (start + p.fileSize.toNat) (if p.fileSize ≠ 0 then start + p.fileSize.toNat else last) ps

/-- The place of a part in a packed segment: between `low` and `high` in memory, and its bytes in the file
before `stop`. -/
structure ElfImagePart.Seat (displacement : ℤ) (low high stop : ℕ) (x : ElfImagePart) : Prop where
  start : ∃ start, x.fileOffset = BitVec.ofNat 64 start ∧ (x.virtualAddress.toNat : ℤ) = displacement + start
  above : displacement + low ≤ x.virtualAddress.toNat
  below : x.virtualAddress.toNat + x.memorySize.toNat ≤ displacement + high
  aligned : x.alignment.toNat ∣ x.virtualAddress.toNat
  file : x.fileSize ≠ 0 → (x.virtualAddress.toNat : ℤ) = displacement + x.fileOffset.toNat ∧
    x.fileOffset.toNat + x.fileSize.toNat ≤ stop

/-- The end of the data is between where the search starts and the end of the memory. -/
theorem fileEnd_spec (hwf : ∀ p ∈ ps, p.Wf) (hcursor : cursor ≤ front) (hlast : last ≤ cursor)
    (h : Packed displacement cursor front ps) (hbound : last ≤ 2 ^ 64) :
    last ≤ fileEnd cursor last ps ∧ fileEnd cursor last ps ≤ memoryStop cursor front ps ∧
      fileEnd cursor last ps ≤ 2 ^ 64 ∧ fileEnd cursor last ps ≤ fileStop cursor ps := by
  induction ps generalizing cursor front last with
  | nil => exact ⟨le_rfl, hlast.trans hcursor, hbound, hlast⟩
  | cons p ps ih =>
    obtain ⟨-, hfront, hfile, hrest⟩ := h
    have hp := hwf p mem_cons_self
    rw [fileEnd, memoryStop, fileStop]
    split
    · rename_i hne
      obtain ⟨hle, hrest⟩ := ih (fun q hq => hwf q (.tail _ hq))
        (Nat.add_le_add_left hp.file_le _) le_rfl hrest (hfile hne)
      exact ⟨by omega, hrest⟩
    · exact ih (fun q hq => hwf q (.tail _ hq)) (Nat.add_le_add_left hp.file_le _) (by omega) hrest hbound

/-- In a packed segment every part has its seat. -/
theorem seat_of_packed (hwf : ∀ p ∈ ps, p.Wf) (hlow : 0 ≤ displacement + cursor) (hcursor : cursor ≤ front)
    (hlast : last ≤ cursor) (hbound : last ≤ 2 ^ 64) (h : Packed displacement cursor front ps)
    (hstop : displacement + memoryStop cursor front ps ≤ 2 ^ 64) :
    (∀ x ∈ placedAt displacement cursor ps,
      x.Seat displacement front (memoryStop cursor front ps) (fileEnd cursor last ps)) ∧
    (placedAt displacement cursor ps).Pairwise fun x y =>
      x.virtualAddress.toNat + x.memorySize.toNat ≤ y.virtualAddress.toNat := by
  -- on the parts still to be placed, with the cursor behind the last one
  induction ps generalizing cursor front last with
  | nil => exact ⟨fun x hx => absurd hx not_mem_nil, Pairwise.nil⟩
  | cons p ps ih =>
    obtain ⟨hdvd, hfront, hfile, hrest⟩ := h
    have hp := hwf p mem_cons_self
    have hps := fun q hq => hwf q (mem_cons_of_mem p hq)
    have haligned := (dvd_displacement_iff hp cursor).mpr hdvd
    have hstop_le := le_memoryStop hps (Nat.add_le_add_left hp.file_le _) hrest
    rw [memoryStop] at hstop ⊢
    rw [fileEnd, placedAt]
    generalize roundUp cursor p.alignment.toNat = start at *
    have hmemory_pos := hp.memory_pos
    have haddress : ((p.at displacement start).virtualAddress.toNat : ℤ) = displacement + start :=
      toNat_ofInt_of_lt (by omega) (by omega)
    have hlast' : (if p.fileSize ≠ 0 then start + p.fileSize.toNat else last) ≤ start + p.fileSize.toNat ∧
        (if p.fileSize ≠ 0 then start + p.fileSize.toNat else last) ≤ 2 ^ 64 := by
      split
      · rename_i hne
        exact ⟨le_rfl, hfile hne⟩
      · exact ⟨by omega, hbound⟩
    have hend := fileEnd_spec hps (Nat.add_le_add_left hp.file_le start) hlast'.1 hrest hlast'.2
    obtain ⟨hseats, hpair⟩ := ih hps (by omega) (Nat.add_le_add_left hp.file_le start) hlast'.1 hlast'.2 hrest hstop
    constructor
    · intro x hx
      rcases mem_cons.mp hx with rfl | hx
      · refine ⟨⟨start, rfl, haddress⟩, by omega, ?_, haligned, fun hne => ?_⟩
        · change ((p.at displacement start).virtualAddress.toNat : ℤ) + p.memorySize.toNat ≤ _
          omega
        · have hne : p.fileSize ≠ 0 := hne
          have hfile := hfile hne
          have hpos : 0 < p.fileSize.toNat := Nat.pos_of_ne_zero fun h0 => hne (eq_of_toNat_eq h0)
          have hoffset : (p.at displacement start).fileOffset.toNat = start := toNat_ofNat_of_lt (by omega)
          rw [hoffset]
          have hle := hend.1
          rw [if_pos hne] at hle ⊢
          exact ⟨haddress, hle⟩
      · have hseat := hseats x hx
        have habove := hseat.above
        exact ⟨hseat.start, by omega, hseat.below, hseat.aligned, hseat.file⟩
    · rw [pairwise_cons]
      refine ⟨fun y hy => ?_, hpair⟩
      have habove := (hseats y hy).above
      change (p.at displacement start).virtualAddress.toNat + p.memorySize.toNat ≤ _
      omega

/-! ## The ends of the writable segment -/

/-- The ends that the pass over the parts finds. -/
theorem writableEnds_placedAt (hwf : ∀ p ∈ ps, p.Wf) (htls : ∀ p ∈ ps, p.isTls = false) :
    writableEnds (placedAt displacement cursor ps) (BitVec.ofNat 64 last, BitVec.ofInt 64 (displacement + front)) =
      (BitVec.ofNat 64 (fileEnd cursor last ps), BitVec.ofInt 64 (displacement + memoryStop cursor front ps)) := by
  induction ps generalizing cursor front last with
  | nil => rfl
  | cons p ps ih =>
    have hnot : ¬ p.isTls = true := by
      rw [htls p mem_cons_self]
      decide
    rw [placedAt, fileEnd, memoryStop]
    generalize roundUp cursor p.alignment.toNat = start
    have hfile : (if p.fileSize ≠ 0 then BitVec.ofNat 64 start + p.fileSize else BitVec.ofNat 64 last) =
        BitVec.ofNat 64 (if p.fileSize ≠ 0 then start + p.fileSize.toNat else last) := by
      split
      · exact ofNat_add_toNat start p.fileSize
      · rfl
    change foldl _ (if p.isTls = true then _ else
      (if p.fileSize ≠ 0 then BitVec.ofNat 64 start + p.fileSize else BitVec.ofNat 64 last,
        BitVec.ofInt 64 (displacement + start) + p.memorySize)) _ = _
    rw [if_neg hnot, hfile, ofInt_add_toNat, add_assoc, ← Nat.cast_add]
    exact ih (fun q hq => hwf q (.tail _ hq)) fun q hq => htls q (.tail _ hq)

end Mettle.Linker

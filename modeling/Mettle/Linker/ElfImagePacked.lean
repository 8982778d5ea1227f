import Mettle.Linker.ElfImageSplit

/-!
# The parts of a valid memory map are packed

Every part is mapped by the load segment of its side, so its address does not wrap around and its bytes are
as far from it as the displacement of the segment says.
-/

namespace Mettle.Linker

open Mettle.Lib List BitVec

/-- The first segment cannot be written. -/
theorem readOnlySegment_not_isWritable (imageBase pageSize readOnlyEnd readOnlyFileEnd : BitVec 64) :
    ¬ (readOnlySegment imageBase pageSize readOnlyEnd readOnlyFileEnd).IsWritable :=
  fun h => h (by decide : (pfR ||| pfX) &&& pfW = 0)

/-- The second one can. -/
theorem writableSegment_isWritable {pageSize : BitVec 64} {parts : List ElfImagePart} {s : ElfProgramHeader}
    (h : s ∈ (writableSegment pageSize parts).toList) : s.IsWritable := by
  cases parts with
  | nil => exact absurd h not_mem_nil
  | cons first rest =>
    obtain rfl := mem_singleton.mp h
    exact (by decide : (pfR ||| pfW) &&& pfW ≠ 0)

namespace ElfImagePart

/-- Parts that are not thread-local take their size in memory. -/
theorem imageSize_of_not_tls {x : ElfImagePart} (h : x.isTls = false) : x.imageSize = x.memorySize.toNat := by
  rw [imageSize, h]
  rfl

/-- They take the addresses from their first one on. -/
theorem memoryRange_of_not_tls {x : ElfImagePart} (h : x.isTls = false) :
    x.memoryRange = Set.Ico x.virtualAddress.toNat (x.virtualAddress.toNat + x.memorySize.toNat) := by
  rw [memoryRange, imageSize_of_not_tls h]

/-- Parts with memory of their own that do not overlap. -/
theorem outside_of_disjoint {x y : ElfImagePart} (hx : x.Wf ∧ x.isTls = false) (hy : y.Wf ∧ y.isTls = false)
    (h : Disjoint x.memoryRange y.memoryRange) :
    Outside x.virtualAddress.toNat (x.virtualAddress.toNat + x.memorySize.toNat) y := by
  rw [memoryRange_of_not_tls hx.2, memoryRange_of_not_tls hy.2, Set.Ico_disjoint_Ico] at h
  have hxpos := hx.1.memory_pos
  have hypos := hy.1.memory_pos
  rw [Outside]
  omega

end ElfImagePart

namespace ElfImageLayout.Split

variable {l : ElfImageLayout} {imageBase pageSize : BitVec 64} {ro rw : List ElfImagePart}

/-- The parts of the first segment, placed. -/
theorem readOnly_at (hs : l.Split imageBase pageSize ro rw) {displacement : ℤ} {cursor : ℕ} :
    ∀ x ∈ placedAt displacement cursor ro, x.Wf ∧ x.isTls = false ∧ ¬ x.IsWritable :=
  forall_placedAt fun p hp start =>
    have ⟨hwf, htls, hnot⟩ := hs.readOnly p hp
    ⟨hwf.at displacement start, htls, hnot⟩

/-- A read-only part is mapped by the read-only segment. -/
theorem maps_readOnly (hs : l.Split imageBase pageSize ro rw) (hm : l.IsMemoryMap imageBase pageSize)
    {x : ElfImagePart} (hx : x ∈ placedAt imageBase.toNat l.headersSize ro) :
    (readOnlySegment imageBase pageSize
      (BitVec.ofNat 64 (imageBase.toNat + memoryStop l.headersSize l.headersSize ro))
      (BitVec.ofNat 64 (fileStop l.headersSize ro))).Maps x := by
  have hpart : x ∈ l.parts := hs.parts ▸ mem_append_left _ hx
  obtain ⟨s, hload, hmaps, hflags, -⟩ := hm.mapped x hpart
  rw [hs.loads] at hload
  rcases mem_cons.mp hload with rfl | hload
  · exact hmaps
  · exact absurd (hflags.mp (writableSegment_isWritable hload)) (hs.readOnly_at x hx).2.2

/-- The first segment is loaded. -/
theorem readOnlySegment_mem (hs : l.Split imageBase pageSize ro rw) :
    readOnlySegment imageBase pageSize
      (BitVec.ofNat 64 (imageBase.toNat + memoryStop l.headersSize l.headersSize ro))
      (BitVec.ofNat 64 (fileStop l.headersSize ro)) ∈ l.loads := hs.loads ▸ mem_cons_self

/-- Its size in memory. -/
theorem memsz_readOnly (imageBase pageSize : BitVec 64) (stop fileStop : ℕ) :
    (readOnlySegment imageBase pageSize (BitVec.ofNat 64 (imageBase.toNat + stop))
      (BitVec.ofNat 64 fileStop)).memsz = BitVec.ofNat 64 stop := by
  change BitVec.ofNat 64 (imageBase.toNat + stop) - imageBase = _
  rw [ofNat_add, ofNat_toNat, setWidth_eq, BitVec.add_comm, BitVec.add_sub_cancel]

section

variable (hs : l.Split imageBase pageSize ro rw) (hm : l.IsMemoryMap imageBase pageSize)
include hs hm

/-- The read-only parts lie behind the headers. -/
theorem headers_le_readOnly {x : ElfImagePart} (hx : x ∈ placedAt imageBase.toNat l.headersSize ro) :
    imageBase.toNat + l.headersSize ≤ x.virtualAddress.toNat := by
  obtain ⟨hwf, htls, -⟩ := hs.readOnly_at x hx
  have hpart : x ∈ l.parts := hs.parts ▸ mem_append_left _ hx
  have hheaders := (hm.headers x hpart).2
  have habove : imageBase.toNat ≤ x.virtualAddress.toNat := (hs.maps_readOnly hm hx).above
  rw [ElfImagePart.memoryRange_of_not_tls htls, Set.Ico_disjoint_Ico] at hheaders
  have hpos := hwf.memory_pos
  omega

/-- Each of its parts is loaded where it is placed. -/
theorem readOnly_loaded {x : ElfImagePart} (hx : x ∈ placedAt imageBase.toNat l.headersSize ro) :
    x.Loaded imageBase.toNat := by
  obtain ⟨hwf, htls, -⟩ := hs.readOnly_at x hx
  have hpart : x ∈ l.parts := hs.parts ▸ mem_append_left _ hx
  have hmaps := hs.maps_readOnly hm hx
  have hsegment := hm.loads _ hs.readOnlySegment_mem
  have hwithin := hmaps.within
  rw [ElfImagePart.imageSize_of_not_tls htls] at hwithin
  have hbehind := hs.headers_le_readOnly hm hx
  have hheaders_pos := hs.headers_pos
  refine ⟨hm.aligned x hpart, by omega, hwithin.trans hsegment.2.1, fun hne => ?_⟩
  obtain ⟨-, hend, hsame⟩ := hmaps.bytes hne
  refine ⟨?_, hend.trans hsegment.2.2⟩
  have hzero : x.fileOffset.toNat + imageBase.toNat = x.virtualAddress.toNat + 0 := hsame
  omega

/-- The read-only parts of a valid map are packed. -/
theorem packed_readOnly :
    Packed imageBase.toNat l.headersSize l.headersSize ro ∧
      imageBase.toNat + memoryStop l.headersSize l.headersSize ro ≤ 2 ^ 64 ∧
      memoryStop l.headersSize l.headersSize ro < 2 ^ 64 := by
  have hsegment := (hm.loads _ hs.readOnlySegment_mem).2.1
  rw [memsz_readOnly] at hsegment
  have hbase : imageBase.toNat + (BitVec.ofNat 64 (memoryStop l.headersSize l.headersSize ro)).toNat ≤ 2 ^ 64 :=
    hsegment
  have hheaders_lt := hs.headers_lt
  have hheaders : imageBase.toNat + l.headersSize ≤ 2 ^ 64 := by
    cases hro : ro with
    | nil =>
      rw [hro, memoryStop, toNat_ofNat_of_lt hheaders_lt] at hbase
      exact hbase
    | cons p ps =>
      have hx : p.at imageBase.toNat (roundUp l.headersSize p.alignment.toNat) ∈
          placedAt imageBase.toNat l.headersSize ro := by
        rw [hro]
        exact .head _
      have hbehind := hs.headers_le_readOnly hm hx
      exact hbehind.trans (isLt _).le
  have hmemory := hm.memory
  rw [hs.parts] at hmemory
  have hpacking : Packed imageBase.toNat l.headersSize l.headersSize ro ∧
      (imageBase.toNat : ℤ) + memoryStop l.headersSize l.headersSize ro ≤ 2 ^ 64 :=
    packed_of_loaded (fun p hp => (hs.readOnly p hp).1) (by omega) (by omega) (by omega)
    (le_refl l.headersSize) (fun x hx => hs.readOnly_loaded hm hx)
    (fun x hx => .inl (by
      have hbehind := hs.headers_le_readOnly hm hx
      exact_mod_cast hbehind))
    ((pairwise_append.mp hmemory).1.imp_of_mem fun hx hy hdisjoint =>
      ElfImagePart.outside_of_disjoint ⟨(hs.readOnly_at _ hx).1, (hs.readOnly_at _ hx).2.1⟩
        ⟨(hs.readOnly_at _ hy).1, (hs.readOnly_at _ hy).2.1⟩ hdisjoint)
  have hstop : imageBase.toNat + memoryStop l.headersSize l.headersSize ro ≤ 2 ^ 64 := by
    exact_mod_cast hpacking.2
  refine ⟨hpacking.1, hstop, ?_⟩
  -- a segment of `2 ^ 64` bytes would be recorded as empty
  by_contra hge
  have heq : memoryStop l.headersSize l.headersSize ro = 2 ^ 64 := by omega
  cases hro : ro with
  | nil =>
    rw [hro, memoryStop] at heq
    omega
  | cons p ps =>
    have hx : p.at imageBase.toNat (roundUp l.headersSize p.alignment.toNat) ∈
        placedAt imageBase.toNat l.headersSize ro := by
      rw [hro]
      exact .head _
    have hwithin := (hs.maps_readOnly hm hx).within
    rw [memsz_readOnly, heq, ElfImagePart.imageSize_of_not_tls (hs.readOnly_at _ hx).2.1] at hwithin
    have hpos := (hs.readOnly_at _ hx).1.memory_pos
    have hbase_eq : (readOnlySegment imageBase pageSize (BitVec.ofNat 64 (imageBase.toNat + 2 ^ 64))
      (BitVec.ofNat 64 (fileStop l.headersSize ro))).vaddr = imageBase := rfl
    rw [hbase_eq] at hwithin
    have hzero : (BitVec.ofNat 64 (2 ^ 64)).toNat = 0 := rfl
    omega

/-- A page is a unit of the image base, if there are read-only parts. -/
theorem page_dvd_imageBase (hne : ro ≠ []) : pageSize.toNat ∣ imageBase.toNat := by
  obtain ⟨hpacked, hstop, -⟩ := hs.packed_readOnly hm
  obtain ⟨p, ps, rfl⟩ := exists_cons_of_ne_nil hne
  have hx : p.at imageBase.toNat (roundUp l.headersSize p.alignment.toNat) ∈
      placedAt imageBase.toNat l.headersSize (p :: ps) := mem_cons_self
  have hbound : l.headersSize ≤ 2 ^ 64 := hs.headers_lt.le
  obtain ⟨start, hoffset, haddress⟩ := ((seat_of_packed (fun p hp => (hs.readOnly p hp).1) (by omega) le_rfl le_rfl
    hbound hpacked (by exact_mod_cast hstop)).1 _ hx).start
  have hcongruent := hm.congruent _ (hs.parts ▸ mem_append_left _ hx)
  have hsum : (p.at imageBase.toNat (roundUp l.headersSize p.alignment.toNat)).virtualAddress.toNat =
      imageBase.toNat + start := by exact_mod_cast haddress
  rw [hoffset, hsum, toNat_ofNat] at hcongruent
  have hmod : start % 2 ^ 64 ≡ start [MOD pageSize.toNat] := Nat.mod_mod_of_dvd start (dvd_two_pow_64 hs.page)
  have hzero : imageBase.toNat + start ≡ 0 + start [MOD pageSize.toNat] := by
    rw [Nat.zero_add]
    exact hcongruent.trans hmod
  exact (Nat.modEq_zero_iff_dvd).mp (Nat.ModEq.add_right_cancel' start hzero)

end

section Writable

variable {first : ElfImagePart} {rest : List ElfImagePart}

/-- Where the writable segment starts in the file. -/
abbrev start (l : ElfImageLayout) (ro : List ElfImagePart) (first : ElfImagePart) : ℕ :=
  writableStart (fileStop l.headersSize ro) first

/-- How far it is above that. -/
abbrev displacement (l : ElfImageLayout) (imageBase pageSize : BitVec 64) (ro : List ElfImagePart)
    (first : ElfImagePart) : ℤ :=
  writableDisplacement (imageBase.toNat + memoryStop l.headersSize l.headersSize ro) pageSize.toNat (start l ro first)

/-- The load segment of the writable parts. -/
abbrev header (l : ElfImageLayout) (imageBase pageSize : BitVec 64) (ro : List ElfImagePart) (first : ElfImagePart)
    (rest : List ElfImagePart) : ElfProgramHeader :=
  writableHeader pageSize (displacement l imageBase pageSize ro first) (start l ro first)
    (fileEnd (start l ro first) (start l ro first) (loadedParts (first :: rest)))
    (memoryStop (start l ro first) (start l ro first) (loadedParts (first :: rest)))

section

variable (hs : l.Split imageBase pageSize ro (first :: rest))
include hs

/-- Both segments. -/
theorem loads_cons :
    l.loads =
      [readOnlySegment imageBase pageSize
        (BitVec.ofNat 64 (imageBase.toNat + memoryStop l.headersSize l.headersSize ro))
        (BitVec.ofNat 64 (fileStop l.headersSize ro)), header l imageBase pageSize ro first rest] := by
  rw [hs.loads, writableSegment_placed (fun p hp => (hs.writable p hp).1) hs.tail]
  rfl

/-- The writable segment lies below `2 ^ 64`: if its address wrapped around it would come before the read-only
one. -/
theorem address_lt (hm : l.IsMemoryMap imageBase pageSize) (hle : pageSize.toNat ≤ 2 ^ 62) :
    displacement l imageBase pageSize ro first + start l ro first < 2 ^ 64 := by
  obtain ⟨-, hstop, hlt⟩ := hs.packed_readOnly hm
  have hpos := alignment_pos hs.page
  have hascending := hm.ascending
  rw [hs.loads_cons] at hascending
  have hbefore := rel_of_pairwise_cons hascending mem_cons_self
  rw [memsz_readOnly, toNat_ofNat_of_lt hlt] at hbefore
  have hbefore : imageBase.toNat + memoryStop l.headersSize l.headersSize ro ≤
    (BitVec.ofInt 64 (displacement l imageBase pageSize ro first + start l ro first)).toNat := hbefore
  rw [writableDisplacement_add, ofInt_natCast, toNat_ofNat] at hbefore
  rw [writableDisplacement_add]
  have hround := roundUp_lt (n := imageBase.toNat + memoryStop l.headersSize l.headersSize ro) hpos
  have hmod := Nat.mod_lt (start l ro first) hpos
  omega

/-- The parts of both. -/
theorem parts_cons :
    l.parts = placedAt imageBase.toNat l.headersSize ro ++
      placedAt (displacement l imageBase pageSize ro first) (start l ro first) (first :: rest) := hs.parts

/-- The parts of the second segment, placed. -/
theorem writable_at {displacement : ℤ} {cursor : ℕ} :
    ∀ x ∈ placedAt displacement cursor (first :: rest), x.Wf ∧ x.IsWritable :=
  forall_placedAt fun p hp start =>
    have ⟨hwf, hwritable⟩ := hs.writable p hp
    ⟨hwf.at displacement start, hwritable⟩

/-- The first of them may be thread-local. -/
theorem placed_cons (displacement : ℤ) :
    placedAt displacement (start l ro first) (first :: rest) =
      (if first.isTls then [first.at displacement (start l ro first)] else []) ++
        placedAt displacement (start l ro first) (loadedParts (first :: rest)) :=
  placedAt_loaded (fun p hp => (hs.writable p hp).1) hs.tail displacement

/-- The others are loaded. -/
theorem loaded_mem {displacement : ℤ} {x : ElfImagePart}
    (hx : x ∈ placedAt displacement (start l ro first) (loadedParts (first :: rest))) :
    x ∈ placedAt displacement (start l ro first) (first :: rest) := by
  rw [hs.placed_cons]
  exact mem_append_right _ hx

end

/-- These are not thread-local. -/
theorem loaded_at {displacement : ℤ} {cursor : ℕ} :
    ∀ x ∈ placedAt displacement cursor (loadedParts (first :: rest)), x.isTls = false :=
  forall_placedAt fun p hp _ => loadedParts_tls p hp

/-- A writable part is mapped by the writable segment. -/
theorem maps_writable (hs : l.Split imageBase pageSize ro (first :: rest)) (hm : l.IsMemoryMap imageBase pageSize)
    {x : ElfImagePart}
    (hx : x ∈ placedAt (displacement l imageBase pageSize ro first) (start l ro first) (first :: rest)) :
    (header l imageBase pageSize ro first rest).Maps x := by
  have hpart : x ∈ l.parts := hs.parts_cons ▸ mem_append_right _ hx
  obtain ⟨s, hload, hmaps, hflags, -⟩ := hm.mapped x hpart
  rw [hs.loads_cons] at hload
  rcases mem_cons.mp hload with rfl | hload
  · exact absurd (hflags.mpr (hs.writable_at x hx).2) (readOnlySegment_not_isWritable _ _ _ _)
  · exact mem_singleton.mp hload ▸ hmaps

/-- The address of the writable segment. -/
theorem header_vaddr (rest : List ElfImagePart)
    (hlt : displacement l imageBase pageSize ro first + start l ro first < 2 ^ 64) :
    ((header l imageBase pageSize ro first rest).vaddr.toNat : ℤ) =
      displacement l imageBase pageSize ro first + start l ro first := by
  refine toNat_ofInt_of_lt ?_ hlt
  rw [writableDisplacement_add]
  exact Int.natCast_nonneg _

/-- The second segment does not start at zero. -/
theorem address_pos (hs : l.Split imageBase pageSize ro rw) (first : ElfImagePart) :
    0 < displacement l imageBase pageSize ro first + start l ro first := by
  have hpos := alignment_pos hs.page
  rw [writableDisplacement_add]
  exact_mod_cast (by omega : 0 < _ + pageSize.toNat + start l ro first % pageSize.toNat)

/-- Where it starts in the file fits. -/
theorem start_lt (hs : l.Split imageBase pageSize ro (first :: rest))
    (hstop : memoryStop l.headersSize l.headersSize ro < 2 ^ 64)
    (haddress : displacement l imageBase pageSize ro first + start l ro first < 2 ^ 64)
    (hdvd : (first.alignment.toNat : ℤ) ∣ displacement l imageBase pageSize ro first) :
    start l ro first < 2 ^ 64 := by
  have hle := fileStop_le (fun p hp => (hs.readOnly p hp).1) (le_refl l.headersSize)
  exact writableStart_lt (hs.writable first (.head _)).1 (alignment_pos hs.page) (dvd_two_pow_64 hs.page)
    (hle.trans (Nat.le_add_left _ _)) (hle.trans_lt hstop) haddress hdvd

/-- The writable parts of a valid map are packed. -/
theorem packed_writable (hs : l.Split imageBase pageSize ro (first :: rest)) (hm : l.IsMemoryMap imageBase pageSize)
    (hle : pageSize.toNat ≤ 2 ^ 62) :
    (first.alignment.toNat : ℤ) ∣ displacement l imageBase pageSize ro first ∧
      displacement l imageBase pageSize ro first +
        memoryStop (start l ro first) (start l ro first) (loadedParts (first :: rest)) ≤ 2 ^ 64 ∧
      Packed (displacement l imageBase pageSize ro first) (start l ro first) (start l ro first)
        (loadedParts (first :: rest)) := by
  have hlt := hs.address_lt hm hle
  have hpos := hs.address_pos first
  have hfirst := (hs.writable first (.head _)).1
  have hmem : first.at (displacement l imageBase pageSize ro first)
      (roundUp (start l ro first) first.alignment.toNat) ∈
      placedAt (displacement l imageBase pageSize ro first) (start l ro first) (first :: rest) := mem_cons_self
  -- the first writable part is aligned in memory, so its displacement is a multiple of the alignment
  have hdvd := (dvd_displacement_iff hfirst (start l ro first)).mp
    (hm.aligned _ (hs.parts_cons ▸ mem_append_right _ hmem))
  have hstart := hs.start_lt (hs.packed_readOnly hm).2.2 hlt hdvd
  have hvaddr := header_vaddr rest hlt
  have hsegment := hm.loads (header l imageBase pageSize ro first rest)
    (hs.loads_cons ▸ mem_cons_of_mem _ (.head _))
  have hoffset : (header l imageBase pageSize ro first rest).offset.toNat = start l ro first :=
    toNat_ofNat_of_lt hstart
  have habove {x : ElfImagePart} (hx : x ∈ placedAt (displacement l imageBase pageSize ro first) (start l ro first)
      (loadedParts (first :: rest))) :
      displacement l imageBase pageSize ro first + start l ro first ≤ x.virtualAddress.toNat := by
    rw [← hvaddr]
    exact_mod_cast (hs.maps_writable hm (hs.loaded_mem hx)).above
  -- the loaded parts stand where their segment maps them
  have hloaded : ∀ x ∈ placedAt (displacement l imageBase pageSize ro first) (start l ro first)
      (loadedParts (first :: rest)), x.Loaded (displacement l imageBase pageSize ro first) := by
    intro x hx
    have hmaps := hs.maps_writable hm (hs.loaded_mem hx)
    have hwithin := hmaps.within
    rw [ElfImagePart.imageSize_of_not_tls (loaded_at x hx)] at hwithin
    have hxabove := habove hx
    refine ⟨hm.aligned x (hs.parts_cons ▸ mem_append_right _ (hs.loaded_mem hx)), by omega,
      hwithin.trans hsegment.2.1, fun hne => ?_⟩
    obtain ⟨-, hend, hsame⟩ := hmaps.bytes hne
    exact ⟨by omega, hend.trans hsegment.2.2⟩
  have hmemory := hm.memory
  rw [hs.parts_cons, hs.placed_cons] at hmemory
  have hpair := (pairwise_append.mp (pairwise_append.mp hmemory).2.1).2.1
  have hpacking : Packed (displacement l imageBase pageSize ro first) (start l ro first) (start l ro first)
      (loadedParts (first :: rest)) ∧ displacement l imageBase pageSize ro first +
        memoryStop (start l ro first) (start l ro first) (loadedParts (first :: rest)) ≤ 2 ^ 64 :=
    packed_of_loaded (fun p hp => (hs.writable p (mem_of_mem_filter hp)).1) hpos.le hlt.le hlt.le
      (le_refl (start l ro first)) hloaded (fun x hx => .inl (habove hx))
      (hpair.imp_of_mem fun hx hy hdisjoint =>
        ElfImagePart.outside_of_disjoint ⟨(hs.writable_at _ (hs.loaded_mem hx)).1, loaded_at _ hx⟩
          ⟨(hs.writable_at _ (hs.loaded_mem hy)).1, loaded_at _ hy⟩ hdisjoint)
  exact ⟨hdvd, hpacking.2, hpacking.1⟩

/-- The parts of a valid map fit. -/
theorem layoutFits (hs : l.Split imageBase pageSize ro rw) (hm : l.IsMemoryMap imageBase pageSize)
    (hle : pageSize.toNat ≤ 2 ^ 62) : LayoutFits imageBase.toNat pageSize.toNat l.headersSize ro rw := by
  obtain ⟨hpacked, hstop, hlt⟩ := hs.packed_readOnly hm
  refine ⟨hstop, hlt, hs.page_dvd_imageBase hm, hpacked, fun first hfirst => ?_⟩
  cases rw with
  | nil => cases hfirst
  | cons head rest =>
    cases hfirst
    exact ⟨hs.address_lt hm hle, hs.packed_writable hm hle⟩

end Writable

end ElfImageLayout.Split

end Mettle.Linker

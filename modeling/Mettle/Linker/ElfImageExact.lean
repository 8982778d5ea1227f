import Mettle.Linker.ElfImagePacked

/-!
# When the layout of an ELF image is a valid memory map

The layout is computed in file space: it is a valid memory map exactly when the parts of each segment are
packed. A part with more memory than file bytes is not, unless the padding in front of the next one makes up
for it, and neither is a part whose alignment does not divide the displacement of its segment, which is a
multiple of the page size only.
-/

open BitVec
open List hiding Disjoint

namespace Mettle.Linker

open Mettle.Lib

namespace ElfImagePart

/-- A part between `low` and `high` in memory, `displacement` above its place in the file, with its bytes there
between `fileLow` and `fileHigh`. -/
structure Kept (displacement : ℤ) (low high fileLow fileHigh : ℕ) (x : ElfImagePart) : Prop where
  start : ∃ start, x.fileOffset = BitVec.ofNat 64 start ∧ (x.virtualAddress.toNat : ℤ) = displacement + start
  above : low ≤ x.virtualAddress.toNat
  below : x.virtualAddress.toNat + x.imageSize ≤ high
  aligned : x.alignment.toNat ∣ x.virtualAddress.toNat
  file : x.fileSize ≠ 0 → (x.virtualAddress.toNat : ℤ) = displacement + x.fileOffset.toNat ∧
    fileLow ≤ x.fileOffset.toNat ∧ x.fileOffset.toNat + x.fileSize.toNat ≤ fileHigh

variable {displacement : ℤ} {low high fileLow fileHigh low' high' fileLow' fileHigh' page : ℕ} {x y : ElfImagePart}

/-- A part that is seated is kept in its segment. -/
theorem Seat.kept (h : x.Seat displacement low high fileHigh) (htls : x.isTls = false)
    (hlow : (low' : ℤ) = displacement + low) (hhigh : (high' : ℤ) = displacement + high) :
    x.Kept displacement low' high' low fileHigh := by
  have habove := h.above
  have hbelow := h.below
  refine ⟨h.start, by omega, ?_, h.aligned, fun hne => ?_⟩
  · rw [imageSize_of_not_tls htls]
    omega
  · obtain ⟨hsame, hend⟩ := h.file hne
    exact ⟨hsame, by omega, hend⟩

/-- A part without data takes no room in the file. -/
theorem fileRange_eq_empty (h : x.fileSize = 0) : x.fileRange = ∅ := by
  rw [fileRange, h]
  exact Set.Ico_self _

/-- Parts in order do not overlap in the file. -/
theorem disjoint_fileRange (h : x.fileSize ≠ 0 → y.fileSize ≠ 0 →
    x.fileOffset.toNat + x.fileSize.toNat ≤ y.fileOffset.toNat) : Disjoint x.fileRange y.fileRange := by
  by_cases hx : x.fileSize = 0
  · rw [fileRange_eq_empty hx]
    exact Set.empty_disjoint _
  by_cases hy : y.fileSize = 0
  · rw [fileRange_eq_empty hy]
    exact Set.disjoint_empty _
  rw [fileRange, fileRange, Set.Ico_disjoint_Ico]
  have hle := h hx hy
  omega

/-- Nor do they in memory. -/
theorem disjoint_memoryRange (h : x.virtualAddress.toNat + x.imageSize ≤ y.virtualAddress.toNat) :
    Disjoint x.memoryRange y.memoryRange := by
  rw [memoryRange, memoryRange, Set.Ico_disjoint_Ico]
  omega

/-- Parts that are apart in the memory of a segment are so in the file. -/
theorem Kept.files (hx : x.Kept displacement low high fileLow fileHigh)
    (hy : y.Kept displacement low' high' fileLow' fileHigh') (hwf : x.Wf)
    (h : x.virtualAddress.toNat + x.memorySize.toNat ≤ y.virtualAddress.toNat) :
    Disjoint x.fileRange y.fileRange := by
  apply disjoint_fileRange
  intro hxne hyne
  have hxsame := (hx.file hxne).1
  have hysame := (hy.file hyne).1
  have hle := hwf.file_le
  omega

/-- The address and the file offset of a part agree modulo the page size. -/
theorem Kept.congruent (hx : x.Kept displacement low high fileLow fileHigh) (hpage : (page : ℤ) ∣ displacement)
    (hunits : page ∣ 2 ^ 64) : x.virtualAddress.toNat ≡ x.fileOffset.toNat [MOD page] := by
  obtain ⟨start, hoffset, haddress⟩ := hx.start
  rw [hoffset, toNat_ofNat]
  have hmod : start % 2 ^ 64 ≡ start [MOD page] := Nat.mod_mod_of_dvd start hunits
  refine Nat.ModEq.trans ?_ hmod.symm
  rw [← Int.natCast_modEq_iff, haddress]
  have hzero : displacement ≡ 0 [ZMOD page] := Int.modEq_zero_iff_dvd.mpr hpage
  have hsum := hzero.add_right (start : ℤ)
  rwa [Int.zero_add] at hsum

end ElfImagePart

/-- The writable side of a valid map, behind read-only parts that end at `readOnlyEnd` in memory and at
`cursor` in the file. -/
structure WritableSide (pageSize readOnlyEnd cursor : ℕ) (parts : List ElfImagePart) (loads : List ElfProgramHeader) :
    Prop where
  files : parts.Pairwise fun x y => Disjoint x.fileRange y.fileRange
  memory : parts.Pairwise fun x y => Disjoint x.memoryRange y.memoryRange
  behind : ∀ x ∈ parts, (x.fileSize ≠ 0 → cursor ≤ x.fileOffset.toNat) ∧
    roundUp readOnlyEnd pageSize + pageSize ≤ x.virtualAddress.toNat
  aligned : ∀ x ∈ parts, x.alignment.toNat ∣ x.virtualAddress.toNat
  congruent : ∀ x ∈ parts, x.virtualAddress.toNat ≡ x.fileOffset.toNat [MOD pageSize]
  writable : ∀ x ∈ parts, x.IsWritable
  mapped : ∀ x ∈ parts, ∃ s ∈ loads, s.Maps x ∧ s.IsWritable
  bounds : ∀ s ∈ loads, s.filesz ≤ s.memsz ∧ s.vaddr.toNat + s.memsz.toNat ≤ 2 ^ 64 ∧
    s.offset.toNat + s.filesz.toNat ≤ 2 ^ 64 ∧ readOnlyEnd ≤ s.vaddr.toNat
  single : ∀ s ∈ loads, ∀ s' ∈ loads, s' = s
  ascending : loads.Pairwise fun s t => s.vaddr.toNat + s.memsz.toNat ≤ t.vaddr.toNat

/-- Differences of words that do not wrap. -/
theorem toNat_sub_ofNat {m n : ℕ} (hle : n ≤ m) (hm : m ≤ 2 ^ 64) (hn : 0 < n) :
    (BitVec.ofNat 64 m - BitVec.ofNat 64 n).toNat = m - n := by
  have hsum : BitVec.ofNat 64 m = BitVec.ofNat 64 (m - n) + BitVec.ofNat 64 n := by
    rw [← ofNat_add, Nat.sub_add_cancel hle]
  rw [hsum, BitVec.add_sub_cancel, toNat_ofNat_of_lt (by omega)]

/-- The same over the integers. -/
theorem toNat_sub_ofInt {m n : ℤ} (hle : n ≤ m) (hm : m ≤ 2 ^ 64) (hn : 0 < n) :
    ((BitVec.ofInt 64 m - BitVec.ofInt 64 n).toNat : ℤ) = m - n := by
  rw [← ofInt_sub]
  exact toNat_ofInt_of_lt (by omega) (by omega)

namespace ElfImageLayout.Split

variable {l : ElfImageLayout} {imageBase pageSize : BitVec 64} {ro rw : List ElfImagePart}

section Writable

variable {first : ElfImagePart} {rest : List ElfImagePart}

/-- What it means that the second segment fits. -/
theorem fits_cons (hf : LayoutFits imageBase.toNat pageSize.toNat l.headersSize ro (first :: rest)) :
    displacement l imageBase pageSize ro first + start l ro first < 2 ^ 64 ∧
      (first.alignment.toNat : ℤ) ∣ displacement l imageBase pageSize ro first ∧
      displacement l imageBase pageSize ro first +
        memoryStop (start l ro first) (start l ro first) (loadedParts (first :: rest)) ≤ 2 ^ 64 ∧
      Packed (displacement l imageBase pageSize ro first) (start l ro first) (start l ro first)
        (loadedParts (first :: rest)) := hf.packedWritable first rfl

section

variable (hs : l.Split imageBase pageSize ro (first :: rest))
    (hf : LayoutFits imageBase.toNat pageSize.toNat l.headersSize ro (first :: rest))
include hs hf

/-- What the writable parts that fit have. -/
theorem kept_writable : (∃ low high : ℕ, (low : ℤ) = displacement l imageBase pageSize ro first + start l ro first ∧
      (high : ℤ) = displacement l imageBase pageSize ro first +
        memoryStop (start l ro first) (start l ro first) (loadedParts (first :: rest)) ∧
      ∀ x ∈ placedAt (displacement l imageBase pageSize ro first) (start l ro first) (first :: rest),
        x.Kept (displacement l imageBase pageSize ro first) low high (start l ro first)
          (fileEnd (start l ro first) (start l ro first) (loadedParts (first :: rest)))) ∧
    (placedAt (displacement l imageBase pageSize ro first) (start l ro first) (loadedParts (first :: rest))).Pairwise
      fun x y => x.virtualAddress.toNat + x.memorySize.toNat ≤ y.virtualAddress.toNat := by
  obtain ⟨hlt, hdvd, hstop, hpacked⟩ := fits_cons hf
  have hpos := hs.address_pos first
  have hstart := hs.start_lt hf.length hlt hdvd
  have hwf : ∀ p ∈ loadedParts (first :: rest), p.Wf := fun p hp => (hs.writable p (mem_of_mem_filter hp)).1
  -- the seats that the packing gives to the loaded parts
  obtain ⟨hseats, hpair⟩ := seat_of_packed hwf hpos.le le_rfl le_rfl hstart.le hpacked hstop
  have hle := le_memoryStop hwf (le_refl (start l ro first)) hpacked
  have hlow := Int.toNat_of_nonneg hpos.le
  have hhigh := Int.toNat_of_nonneg (show 0 ≤ displacement l imageBase pageSize ro first +
    memoryStop (start l ro first) (start l ro first) (loadedParts (first :: rest)) by omega)
  refine ⟨⟨_, _, hlow, hhigh, fun x hx => ?_⟩, hpair⟩
  rw [hs.placed_cons] at hx
  rcases mem_append.mp hx with hx | hx
  · -- the template of the thread-local part is empty
    obtain ⟨htls, hx⟩ := mem_ite_nil_right.mp hx
    obtain rfl := mem_singleton.mp hx
    have hfirst := (hs.writable first (.head _)).1
    have haddress : ((first.at (displacement l imageBase pageSize ro first) (start l ro first)).virtualAddress.toNat : ℤ) =
        displacement l imageBase pageSize ro first + start l ro first := toNat_ofInt_of_lt hpos.le hlt
    have hempty : (first.at (displacement l imageBase pageSize ro first) (start l ro first)).imageSize = 0 := by
      change (if first.isTls then first.fileSize.toNat else _) = 0
      rw [if_pos htls, hfirst.tls htls]
      rfl
    refine ⟨⟨start l ro first, rfl, haddress⟩, by omega, by omega, ?_, fun hne => absurd (hfirst.tls htls) hne⟩
    have haligned := (dvd_displacement_iff hfirst (start l ro first)).mpr hdvd
    rw [roundUp_writableStart _ hfirst] at haligned
    exact haligned
  · exact (hseats x hx).kept (loaded_at x hx) hlow hhigh

/-- The writable segment of parts that fit. -/
theorem header_spec : (header l imageBase pageSize ro first rest).offset.toNat = start l ro first ∧
      (header l imageBase pageSize ro first rest).filesz.toNat =
        fileEnd (start l ro first) (start l ro first) (loadedParts (first :: rest)) - start l ro first ∧
      ((header l imageBase pageSize ro first rest).memsz.toNat : ℤ) =
        memoryStop (start l ro first) (start l ro first) (loadedParts (first :: rest)) - start l ro first ∧
      start l ro first ≤ fileEnd (start l ro first) (start l ro first) (loadedParts (first :: rest)) ∧
      fileEnd (start l ro first) (start l ro first) (loadedParts (first :: rest)) ≤
        memoryStop (start l ro first) (start l ro first) (loadedParts (first :: rest)) ∧
      fileEnd (start l ro first) (start l ro first) (loadedParts (first :: rest)) ≤ 2 ^ 64 := by
  obtain ⟨hlt, hdvd, hstop, hpacked⟩ := fits_cons hf
  have hpos := hs.address_pos first
  have hstart := hs.start_lt hf.length hlt hdvd
  have hwf : ∀ p ∈ loadedParts (first :: rest), p.Wf := fun p hp => (hs.writable p (mem_of_mem_filter hp)).1
  obtain ⟨hle, hmemory, hbound, -⟩ := fileEnd_spec hwf (le_refl (start l ro first)) le_rfl hpacked hstart.le
  have hbehind : 0 < start l ro first := by
    have hcursor : fileStop l.headersSize ro ≤ start l ro first :=
      le_roundUp (alignment_pos (hs.writable first (.head _)).1.alignment)
    have hheaders := le_fileStop l.headersSize fun p hp => (hs.readOnly p hp).1
    have hheaders_pos := hs.headers_pos
    omega
  refine ⟨toNat_ofNat_of_lt hstart, toNat_sub_ofNat hle hbound hbehind, ?_, hle, hmemory, hbound⟩
  refine (toNat_sub_ofInt (by omega) hstop hpos).trans (by ring)

/-- The second segment holds its parts. -/
theorem writableSide : WritableSide pageSize.toNat (imageBase.toNat + memoryStop l.headersSize l.headersSize ro)
      (fileStop l.headersSize ro)
      (placedAt (displacement l imageBase pageSize ro first) (start l ro first) (first :: rest))
      [header l imageBase pageSize ro first rest] := by
  obtain ⟨hlt, hdvd, hstop, hpacked⟩ := fits_cons hf
  obtain ⟨⟨low, high, hlow, hhigh, hkept⟩, hpair⟩ := hs.kept_writable hf
  obtain ⟨hoffset, hfilesz, hmemsz, hfile, hmemory, hbound⟩ := hs.header_spec hf
  have hvaddr := header_vaddr rest hlt
  have haddress : displacement l imageBase pageSize ro first + start l ro first = _ :=
    writableDisplacement_add (imageBase.toNat + memoryStop l.headersSize l.headersSize ro) pageSize.toNat
      (start l ro first)
  have hbehind := le_roundUp (n := imageBase.toNat + memoryStop l.headersSize l.headersSize ro)
    (alignment_pos hs.page)
  have hcursor : fileStop l.headersSize ro ≤ start l ro first :=
    le_roundUp (alignment_pos (hs.writable first (.head _)).1.alignment)
  have hsplit := hs.placed_cons (displacement l imageBase pageSize ro first)
  -- a thread-local part has no bytes and no memory in the image
  have htls : ∀ x ∈ (if first.isTls then [first.at (displacement l imageBase pageSize ro first) (start l ro first)]
      else []), x.fileRange = ∅ ∧ x.memoryRange = ∅ := by
    intro x hx
    obtain ⟨htls, hx⟩ := mem_ite_nil_right.mp hx
    obtain rfl := mem_singleton.mp hx
    have hzero := (hs.writable first (.head _)).1.tls htls
    refine ⟨ElfImagePart.fileRange_eq_empty hzero, ?_⟩
    have hempty : (first.at (displacement l imageBase pageSize ro first) (start l ro first)).imageSize = 0 := by
      change (if first.isTls then first.fileSize.toNat else _) = 0
      rw [if_pos htls, hzero]
      rfl
    rw [ElfImagePart.memoryRange, hempty]
    exact Set.Ico_self _
  have htls_pair {P : ElfImagePart → Set ℕ} (hP : ∀ x ∈ (if first.isTls then
      [first.at (displacement l imageBase pageSize ro first) (start l ro first)] else []), P x = ∅) :
      (if first.isTls then [first.at (displacement l imageBase pageSize ro first) (start l ro first)]
        else []).Pairwise fun x y => Disjoint (P x) (P y) :=
    Pairwise.imp_of_mem (fun hx _ _ => by rw [hP _ hx]; exact Set.empty_disjoint _)
      (pairwise_of_forall (R := fun _ _ => True) fun _ _ => trivial)
  constructor
  · rw [hsplit, pairwise_append]
    refine ⟨htls_pair fun x hx => (htls x hx).1, hpair.imp_of_mem fun hx hy hle => ?_, fun x hx y _ => ?_⟩
    · exact (hkept _ (hs.loaded_mem hx)).files (hkept _ (hs.loaded_mem hy)) (hs.writable_at _ (hs.loaded_mem hx)).1 hle
    · rw [(htls x hx).1]
      exact Set.empty_disjoint _
  · rw [hsplit, pairwise_append]
    refine ⟨htls_pair fun x hx => (htls x hx).2, hpair.imp_of_mem fun hx hy hle => ?_, fun x hx y _ => ?_⟩
    · apply ElfImagePart.disjoint_memoryRange
      rw [ElfImagePart.imageSize_of_not_tls (loaded_at _ hx)]
      exact hle
    · rw [(htls x hx).2]
      exact Set.empty_disjoint _
  · intro x hx
    have habove := (hkept x hx).above
    exact ⟨fun hne => hcursor.trans ((hkept x hx).file hne).2.1, by omega⟩
  · exact fun x hx => (hkept x hx).aligned
  · exact fun x hx => (hkept x hx).congruent (dvd_writableDisplacement _ _ _) (dvd_two_pow_64 hs.page)
  · exact fun x hx => (hs.writable_at x hx).2
  · intro x hx
    refine ⟨_, mem_cons_self, ⟨?_, ?_, fun hne => ?_⟩, (by decide : (pfR ||| pfW) &&& pfW ≠ 0)⟩
    · have habove := (hkept x hx).above
      omega
    · have hbelow := (hkept x hx).below
      omega
    · obtain ⟨hsame, hafter, hbefore⟩ := (hkept x hx).file hne
      omega
  · intro s hmem
    obtain rfl := mem_singleton.mp hmem
    refine ⟨?_, by omega, by omega, by omega⟩
    rw [le_def]
    omega
  · intro s hmem s' hmem'
    rw [mem_singleton.mp hmem, mem_singleton.mp hmem']
  · exact pairwise_singleton _ _

end

end Writable

section

variable (hs : l.Split imageBase pageSize ro rw) (hf : LayoutFits imageBase.toNat pageSize.toNat l.headersSize ro rw)
include hs hf

/-- The writable side of a layout that fits, also when there is none. -/
theorem writableSide_all : WritableSide pageSize.toNat (imageBase.toNat + memoryStop l.headersSize l.headersSize ro)
      (fileStop l.headersSize ro)
      (placedWritable (imageBase.toNat + memoryStop l.headersSize l.headersSize ro) pageSize.toNat
        (fileStop l.headersSize ro) rw)
      (writableSegment pageSize (placedWritable (imageBase.toNat + memoryStop l.headersSize l.headersSize ro)
        pageSize.toNat (fileStop l.headersSize ro) rw)).toList := by
  cases rw with
  | nil =>
    constructor
    all_goals first | exact Pairwise.nil | exact fun x hx => absurd hx not_mem_nil
  | cons first rest =>
    rw [writableSegment_placed (fun p hp => (hs.writable p hp).1) hs.tail]
    exact hs.writableSide hf

/-- What the read-only parts that fit have. -/
theorem kept_readOnly : (∀ x ∈ placedAt imageBase.toNat l.headersSize ro,
      x.Kept imageBase.toNat (imageBase.toNat + l.headersSize)
        (imageBase.toNat + memoryStop l.headersSize l.headersSize ro) l.headersSize (fileStop l.headersSize ro)) ∧
    (placedAt imageBase.toNat l.headersSize ro).Pairwise
      fun x y => x.virtualAddress.toNat + x.memorySize.toNat ≤ y.virtualAddress.toNat := by
  have hwf := fun p hp => (hs.readOnly p hp).1
  obtain ⟨hseats, hpair⟩ := seat_of_packed hwf (Int.natCast_nonneg _) le_rfl le_rfl hs.headers_lt.le hf.packed
    (by exact_mod_cast hf.below)
  have hend := (fileEnd_spec hwf (le_refl l.headersSize) le_rfl hf.packed hs.headers_lt.le).2.2.2
  refine ⟨fun x hx => ?_, hpair⟩
  have hkept := (hseats x hx).kept (hs.readOnly_at x hx).2.1 (Nat.cast_add _ _) (Nat.cast_add _ _)
  refine ⟨hkept.start, hkept.above, hkept.below, hkept.aligned, fun hne => ?_⟩
  obtain ⟨hsame, hlow, hhigh⟩ := hkept.file hne
  exact ⟨hsame, hlow, hhigh.trans hend⟩

/-- The read-only segment of parts that fit. -/
theorem readOnlySegment_spec : ∃ s, l.loads = s :: (writableSegment pageSize (placedWritable (imageBase.toNat +
        memoryStop l.headersSize l.headersSize ro) pageSize.toNat (fileStop l.headersSize ro) rw)).toList ∧
      ¬ s.IsWritable ∧ s.vaddr.toNat = imageBase.toNat ∧ s.offset.toNat = 0 ∧
      s.filesz.toNat = fileStop l.headersSize ro ∧ s.memsz.toNat = memoryStop l.headersSize l.headersSize ro := by
  have hfile := fileStop_le (fun p hp => (hs.readOnly p hp).1) (le_refl l.headersSize)
  refine ⟨_, hs.loads, readOnlySegment_not_isWritable _ _ _ _, rfl, rfl, ?_, ?_⟩
  · exact toNat_ofNat_of_lt (hfile.trans_lt hf.length)
  · rw [memsz_readOnly, toNat_ofNat_of_lt hf.length]

/-- A layout whose parts fit is a valid map. -/
theorem isMemoryMap : l.IsMemoryMap imageBase pageSize := by
  obtain ⟨hkept, hpair⟩ := hs.kept_readOnly hf
  obtain ⟨first, hloads, hnot, hvaddr, hoffset, hfilesz, hmemsz⟩ := hs.readOnlySegment_spec hf
  have hside := hs.writableSide_all hf
  have hround := le_roundUp (n := imageBase.toNat + memoryStop l.headersSize l.headersSize ro) (alignment_pos hs.page)
  have hfile := fileStop_le (fun p hp => (hs.readOnly p hp).1) (le_refl l.headersSize)
  have hheaders := le_fileStop l.headersSize fun p hp => (hs.readOnly p hp).1
  have hbelow := hf.below
  have hparts := hs.parts
  -- from here only what is known of the two segments counts, not how they were computed
  generalize placedWritable (imageBase.toNat + memoryStop l.headersSize l.headersSize ro) pageSize.toNat
    (fileStop l.headersSize ro) rw = writable at hside hparts hloads
  generalize (writableSegment pageSize writable).toList = loads at hside hloads
  have hro {x : ElfImagePart} (hx : x ∈ placedAt imageBase.toNat l.headersSize ro) :
      x.virtualAddress.toNat + x.imageSize ≤ imageBase.toNat + memoryStop l.headersSize l.headersSize ro :=
    (hkept x hx).below
  constructor
  -- file ranges: the read-only parts among themselves, the writable ones, and one against the other
  · rw [hparts, pairwise_append]
    refine ⟨hpair.imp_of_mem fun hx hy hle => (hkept _ hx).files (hkept _ hy) (hs.readOnly_at _ hx).1 hle,
      hside.files, fun x hx y hy => ElfImagePart.disjoint_fileRange fun hxne hyne => ?_⟩
    exact ((hkept x hx).file hxne).2.2.trans ((hside.behind y hy).1 hyne)
  -- memory ranges, where the page rounding keeps the writable side above
  · rw [hparts, pairwise_append]
    refine ⟨hpair.imp_of_mem fun hx hy hle => ElfImagePart.disjoint_memoryRange ?_, hside.memory,
      fun x hx y hy => ElfImagePart.disjoint_memoryRange ?_⟩
    · rw [ElfImagePart.imageSize_of_not_tls (hs.readOnly_at _ hx).2.1]
      exact hle
    · have hend := hro hx
      have hbehind := (hside.behind y hy).2
      omega
  · intro x hx
    rw [hparts] at hx
    have hplace : (x.fileSize ≠ 0 → l.headersSize ≤ x.fileOffset.toNat) ∧
        imageBase.toNat + l.headersSize ≤ x.virtualAddress.toNat := by
      rcases mem_append.mp hx with hx | hx
      · exact ⟨fun hne => ((hkept x hx).file hne).2.1, (hkept x hx).above⟩
      · have hbehind := hside.behind x hx
        exact ⟨fun hne => hheaders.trans (hbehind.1 hne), by omega⟩
    constructor
    · by_cases hzero : x.fileSize = 0
      · rw [ElfImagePart.fileRange_eq_empty hzero]
        exact Set.disjoint_empty _
      · have hle := hplace.1 hzero
        rw [ElfImagePart.fileRange, Set.Ico_disjoint_Ico]
        omega
    · have hle := hplace.2
      rw [ElfImagePart.memoryRange, Set.Ico_disjoint_Ico]
      omega
  · intro x hx
    rw [hparts] at hx
    exact (mem_append.mp hx).elim (fun hx => (hkept x hx).aligned) (hside.aligned x)
  · intro x hx
    rw [hparts] at hx
    refine (mem_append.mp hx).elim (fun hx => ?_) (hside.congruent x)
    have hne : ro ≠ [] := fun hnil => by
      rw [hnil] at hx
      exact absurd hx not_mem_nil
    exact (hkept x hx).congruent (Int.natCast_dvd_natCast.mpr (hf.base hne)) (dvd_two_pow_64 hs.page)
  · -- the read-only parts end before the page in front of the writable ones
    intro p hp hpnot q hq hqwritable x hx y hy heq
    rw [hparts] at hp hq
    have hp := (mem_append.mp hp).resolve_right fun hp => hpnot (hside.writable p hp)
    have hq := (mem_append.mp hq).resolve_left fun hq => (hs.readOnly_at q hq).2.2 hqwritable
    have hend := hro hp
    have hbehind := (hside.behind q hq).2
    have hxlt := hx.2
    have hyle := hy.1
    have hlt : x / pageSize.toNat < y / pageSize.toNat := by
      refine Nat.lt_of_lt_of_le ?_ (Nat.div_le_div_right (le_of_add_le_left (hbehind.trans hyle)))
      exact Nat.div_lt_div_of_lt_of_dvd (dvd_roundUp _ _) (hxlt.trans_le (hend.trans hround))
    omega
  · intro x hx
    rw [hparts] at hx
    rw [hloads]
    rcases mem_append.mp hx with hx | hx
    · refine ⟨first, mem_cons_self, ⟨?_, ?_, fun hne => ?_⟩,
        iff_of_false hnot (hs.readOnly_at x hx).2.2, fun s hs' hne => ?_⟩
      · have habove := (hkept x hx).above
        omega
      · have hend := hro hx
        omega
      · obtain ⟨hsame, hlow, hhigh⟩ := (hkept x hx).file hne
        omega
      · have hs' := (mem_cons.mp hs').resolve_left hne
        have hbehind := (hside.bounds s hs').2.2.2
        have hend := hro hx
        rw [ElfProgramHeader.memoryRange, ElfImagePart.memoryRange, Set.Ico_disjoint_Ico]
        omega
    · obtain ⟨s, hmem, hmaps, hwritable⟩ := hside.mapped x hx
      refine ⟨s, mem_cons_of_mem _ hmem, hmaps, iff_of_true hwritable (hside.writable x hx), fun s' hs' hne => ?_⟩
      rcases mem_cons.mp hs' with rfl | hs'
      · have hbehind := (hside.behind x hx).2
        rw [ElfProgramHeader.memoryRange, ElfImagePart.memoryRange, Set.Ico_disjoint_Ico]
        omega
      · exact absurd (hside.single s hmem s' hs') hne
  · intro s hmem
    rw [hloads] at hmem
    rcases mem_cons.mp hmem with rfl | hmem
    · refine ⟨?_, by omega, by omega⟩
      rw [le_def]
      omega
    · exact ⟨(hside.bounds s hmem).1, (hside.bounds s hmem).2.1, (hside.bounds s hmem).2.2.1⟩
  · rw [hloads, pairwise_cons]
    refine ⟨fun s hmem => ?_, ?_⟩
    · have hbehind := (hside.bounds s hmem).2.2.2
      omega
    · exact hside.ascending

end

end ElfImageLayout.Split

/-- The file header and the program headers of an image. -/
def imageHeadersSize (sections : Fin 7 → LinkedSection) (plan : Option ElfDynamicPlan) : ℕ :=
  elfEhdrSize + elfImageCountProgramHeaders (readOnlyParts sections ++ writableParts sections)
    (readOnlyParts sections).length plan * elfPhdrSize

/-- The size of the headers. -/
theorem elfImageLayout_headersSize (sections : Fin 7 → LinkedSection) (plan : Option ElfDynamicPlan)
    (imageBase pageSize : BitVec 64) :
    (elfImageLayout sections plan imageBase pageSize).headersSize =
      imageHeadersSize (elfImageNormalizeTls sections) plan := by
  unfold elfImageLayout
  rw [collectParts_eq]
  rfl

/-- The layout of an image is a valid memory map exactly when the parts fit. -/
theorem elfImageLayout_isMemoryMap_iff (sections : Fin 7 → LinkedSection) (plan : Option ElfDynamicPlan)
    (imageBase pageSize : BitVec 64) (halign : PowerAligned sections) (hpage : pageSize.toNat.isPowerOfTwo)
    (hle : pageSize.toNat ≤ 2 ^ 62) :
    (elfImageLayout sections plan imageBase pageSize).IsMemoryMap imageBase pageSize ↔
      LayoutFits imageBase.toNat pageSize.toNat (imageHeadersSize (elfImageNormalizeTls sections) plan)
        (readOnlyParts (elfImageNormalizeTls sections)) (writableParts (elfImageNormalizeTls sections)) := by
  have hsplit := elfImageLayout_split plan imageBase halign hpage
  rw [← elfImageLayout_headersSize sections plan imageBase pageSize]
  exact ⟨fun hm => hsplit.layoutFits hm hle, hsplit.isMemoryMap⟩

/-- One byte of code, and one of data with the given alignment. -/
def twoSections (alignment : BitVec 64) (k : Fin 7) : LinkedSection :=
  if linkSectionIndexFromKind .text = some k then
    { data := [0xC3], dataCapacity := 64, size := 1, virtualSize := 1, alignment := 16 }
  else if linkSectionIndexFromKind .data = some k then
    { data := [1], dataCapacity := 64, size := 1, virtualSize := 1, alignment }
  else {}

/-- The alignments of the example are powers of two. -/
theorem twoSections_aligned {e : ℕ} (he : e < 64) : PowerAligned (twoSections (BitVec.ofNat 64 (2 ^ e))) := by
  intro k
  right
  rw [twoSections]
  split
  · exact ⟨4, rfl⟩
  split
  · exact ⟨e, toNat_ofNat_of_lt (Nat.pow_lt_pow_right (by decide) he)⟩
  · exact ⟨0, rfl⟩

theorem elfImageLayout_isMemoryMap_iff_two :
    (elfImageLayout (twoSections 0x20) none 0x400000 0x1000).IsMemoryMap 0x400000 0x1000 :=
  (elfImageLayout_isMemoryMap_iff (twoSections 0x20) none 0x400000 0x1000
    (twoSections_aligned (by decide : 5 < 64)) ⟨12, rfl⟩ (by decide)).mpr
    ⟨by decide, by decide, fun _ => by decide, by decide, by decide⟩

/-- Data with an alignment of four pages is at an address that is no multiple of it. -/
theorem elfImageLayout_misaligns :
    ¬ (elfImageLayout (twoSections 0x4000) none 0x400000 0x1000).IsMemoryMap 0x400000 0x1000 := by
  intro h
  have hparts : ∃ p ∈ (elfImageLayout (twoSections 0x4000) none 0x400000 0x1000).parts,
      ¬ p.alignment.toNat ∣ p.virtualAddress.toNat := by decide
  obtain ⟨p, hp, hnot⟩ := hparts
  exact hnot (h.aligned p hp)

end Mettle.Linker

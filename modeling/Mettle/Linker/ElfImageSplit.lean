import Mettle.Linker.ElfSegment

/-!
# The two segments of an ELF image

The layout of an image is its read-only parts, placed from the headers on, and its writable parts, placed from
the page after next on. Each side has one load segment.
-/

namespace Mettle.Linker

open Mettle.Lib List

/-- The layout of an image, seen as its two segments. -/
structure ElfImageLayout.Split (l : ElfImageLayout) (imageBase pageSize : BitVec 64) (ro rw : List ElfImagePart) :
    Prop where
  headers_pos : 0 < l.headersSize
  headers_lt : l.headersSize < 2 ^ 64
  page : pageSize.toNat.isPowerOfTwo
  readOnly : ∀ p ∈ ro, p.Wf ∧ p.isTls = false ∧ ¬ p.IsWritable
  writable : ∀ p ∈ rw, p.Wf ∧ p.IsWritable
  tail : ∀ p ∈ rw.tail, p.isTls = false
  parts : l.parts = placedAt imageBase.toNat l.headersSize ro ++
    placedWritable (imageBase.toNat + memoryStop l.headersSize l.headersSize ro) pageSize.toNat
      (fileStop l.headersSize ro) rw
  loads : l.loads =
    readOnlySegment imageBase pageSize
        (BitVec.ofNat 64 (imageBase.toNat + memoryStop l.headersSize l.headersSize ro))
        (BitVec.ofNat 64 (fileStop l.headersSize ro)) ::
      (writableSegment pageSize
        (placedWritable (imageBase.toNat + memoryStop l.headersSize l.headersSize ro) pageSize.toNat
          (fileStop l.headersSize ro) rw)).toList

/-! ## The layout is split -/

/-- Normalizing keeps the alignment or makes it 16. -/
theorem normalizeTls_alignment (s : LinkedSection) :
    (normalizeTls s).alignment = s.alignment ∨ (normalizeTls s).alignment = 16 := by
  rw [normalizeTls]
  split_ifs
  all_goals simp

variable {sections : Fin 7 → LinkedSection}

/-- So the alignments are still powers of two. -/
theorem PowerAligned.normalizeTls (h : PowerAligned sections) : PowerAligned (elfImageNormalizeTls sections) := by
  intro k
  rw [elfImageNormalizeTls]
  split
  · rcases normalizeTls_alignment (sections k) with heq | heq
    · exact heq ▸ h k
    · exact .inr ⟨4, congrArg BitVec.toNat heq⟩
  · exact h k

/-- What is collected. -/
theorem collectParts_eq (sections : Fin 7 → LinkedSection) :
    elfImageCollectParts sections =
      (readOnlyParts sections ++ writableParts sections, (readOnlyParts sections).length) :=
  Prod.ext (collectParts_fst sections) (collectParts_snd sections)

/-- There are at most twelve program headers. -/
theorem countProgramHeaders_le (sections : Fin 7 → LinkedSection) (plan : Option ElfDynamicPlan) (n : ℕ) :
    elfImageCountProgramHeaders (readOnlyParts sections ++ writableParts sections) n plan ≤ 12 := by
  have hro : (readOnlyParts sections).length ≤ 4 := length_filterMap_le _ _
  have hrw : (writableParts sections).length ≤ 3 := length_filterMap_le _ _
  have hblob (blob : Option ElfDynamicBlob) : blob.toList.length ≤ 1 := by
    cases blob with
    | none => exact Nat.zero_le 1
    | some blob => exact le_rfl
  have htls := countP_le_length (p := fun p : ElfImagePart => p.isTls)
    (l := readOnlyParts sections ++ writableParts sections)
  rw [length_append] at htls
  unfold elfImageCountProgramHeaders
  have hsecond : (if n ≠ (readOnlyParts sections ++ writableParts sections).length then 1 else 0) ≤ 1 := by
    split <;> omega
  cases plan with
  | none =>
    dsimp only
    omega
  | some plan =>
    have hinterp := hblob plan.interp
    have hdynamic := hblob plan.dynamic
    dsimp only
    omega

/-- A header of a blob is not loaded. -/
theorem filter_blobHeader (parts : List ElfImagePart) {type : BitVec 32} (htype : type ≠ ptLoad) (flags : BitVec 32)
    (align : BitVec 64) (blob : Option ElfDynamicBlob) :
    ((elfImageBlobHeader parts type flags align blob).toList.filter
      fun s : ElfProgramHeader => s.type = ptLoad) = [] := by
  apply filter_eq_nil_iff.mpr
  intro s hs
  obtain ⟨b, -, hb⟩ := Option.bind_eq_some_iff.mp (Option.mem_toList.mp hs)
  obtain ⟨place, -, rfl⟩ := Option.map_eq_some_iff.mp hb
  exact fun h => htype (of_decide_eq_true h)

/-- The load segments among the program headers. -/
theorem loads_writeProgramHeaders (parts : List ElfImagePart) (n : ℕ)
    (imageBase pageSize readOnlyEnd readOnlyFileEnd : BitVec 64) (plan : Option ElfDynamicPlan) :
    ((elfImageWriteProgramHeaders parts n imageBase pageSize readOnlyEnd readOnlyFileEnd plan).filter
      fun s : ElfProgramHeader => s.type = ptLoad) =
      readOnlySegment imageBase pageSize readOnlyEnd readOnlyFileEnd ::
        (writableSegment pageSize (parts.drop n)).toList := by
  have htls : (((parts.filter fun p : ElfImagePart => p.isTls).map fun p : ElfImagePart =>
      ({ type := ptTls, flags := pfR, offset := p.fileOffset, vaddr := p.virtualAddress, filesz := p.fileSize
         memsz := p.memorySize, align := p.alignment } : ElfProgramHeader)).filter
      fun s : ElfProgramHeader => s.type = ptLoad) = [] := by
    apply filter_eq_nil_iff.mpr
    intro s hs
    obtain ⟨p, -, rfl⟩ := mem_map.mp hs
    exact fun h => absurd (of_decide_eq_true h : ptTls = ptLoad) (by decide)
  have hwritable : ((writableSegment pageSize (parts.drop n)).toList.filter
      fun s : ElfProgramHeader => s.type = ptLoad) = (writableSegment pageSize (parts.drop n)).toList := by
    cases parts.drop n with
    | nil => rfl
    | cons first rest => rfl
  unfold elfImageWriteProgramHeaders
  rw [cons_append, cons_append, filter_cons_of_pos (by rfl),
    filter_append, filter_append, htls, append_nil, hwritable]
  cases plan with
  | none => rw [filter_nil, append_nil]
  | some plan =>
    rw [filter_append, filter_append, filter_blobHeader _ (by decide), filter_blobHeader _ (by decide)]
    exact congrArg _ (append_nil _)

/-- The layout of an image with aligned sections. -/
theorem elfImageLayout_split (plan : Option ElfDynamicPlan) (imageBase : BitVec 64) {pageSize : BitVec 64}
    (halign : PowerAligned sections) (hpage : pageSize.toNat.isPowerOfTwo) :
    (elfImageLayout sections plan imageBase pageSize).Split imageBase pageSize
      (readOnlyParts (elfImageNormalizeTls sections)) (writableParts (elfImageNormalizeTls sections)) := by
  have hro : ∀ p ∈ readOnlyParts (elfImageNormalizeTls sections), p.Wf ∧ p.isTls = false ∧ ¬ p.IsWritable := by
    intro p hp
    obtain ⟨kind, -, hpart⟩ := mem_filterMap.mp hp
    exact ⟨halign.normalizeTls.wf hpart, (readOnlyParts_spec hp).2, (readOnlyParts_spec hp).1⟩
  have hrw : ∀ p ∈ writableParts (elfImageNormalizeTls sections), p.Wf ∧ p.IsWritable := by
    intro p hp
    obtain ⟨kind, -, hpart⟩ := mem_filterMap.mp hp
    exact ⟨halign.normalizeTls.wf hpart, writableParts_spec hp⟩
  have hspec := assignAddresses_spec (fun p hp => ⟨(hro p hp).1, (hro p hp).2.1⟩) (fun p hp => (hrw p hp).1)
    imageBase hpage
  have hcount := countProgramHeaders_le (elfImageNormalizeTls sections) plan
    (readOnlyParts (elfImageNormalizeTls sections)).length
  unfold elfImageLayout
  rw [collectParts_eq]
  dsimp only
  rw [hspec]
  refine ⟨?_, ?_, hpage, hro, hrw, fun p hp => writableParts_tail hp, rfl, ?_⟩
  · exact Nat.lt_of_lt_of_le (by decide : 0 < elfEhdrSize) (Nat.le_add_right _ _)
  · dsimp only
    unfold elfEhdrSize elfPhdrSize
    omega
  · rw [ElfImageLayout.loads, loads_writeProgramHeaders, drop_left' (length_placedAt _ _ _)]

/-! ## The writable segment -/

section Writable

variable {readOnlyEnd pageSize cursor : ℕ} {first : ElfImagePart} {rest : List ElfImagePart}

/-- Where the writable segment starts in memory. -/
theorem writableDisplacement_add (readOnlyEnd pageSize start : ℕ) :
    writableDisplacement readOnlyEnd pageSize start + start =
      ((roundUp readOnlyEnd pageSize + pageSize + start % pageSize : ℕ) : ℤ) := by
  have hle := Nat.mod_le start pageSize
  rw [writableDisplacement, Nat.cast_sub hle]
  push_cast
  ring

/-- The displacement is a number of pages. -/
theorem dvd_writableDisplacement (readOnlyEnd pageSize start : ℕ) :
    (pageSize : ℤ) ∣ writableDisplacement readOnlyEnd pageSize start := by
  have hround : (pageSize : ℤ) ∣ (roundUp readOnlyEnd pageSize : ℕ) :=
    Int.natCast_dvd_natCast.mpr (dvd_roundUp _ _)
  have hfloor : (pageSize : ℤ) ∣ ((start - start % pageSize : ℕ) : ℤ) :=
    Int.natCast_dvd_natCast.mpr (Nat.dvd_sub_mod start)
  exact dvd_sub (dvd_add hround dvd_rfl) hfloor

/-- The second segment starts aligned for its first part. -/
theorem roundUp_writableStart (cursor : ℕ) (hwf : first.Wf) :
    roundUp (writableStart cursor first) first.alignment.toNat = writableStart cursor first :=
  roundUp_of_dvd (alignment_pos hwf.alignment) (dvd_roundUp _ _)

/-- An aligned writable segment below `2 ^ 64` does not start at `2 ^ 64` in the file: its address would be
a multiple of the alignment behind the read-only parts. -/
theorem writableStart_lt (hwf : first.Wf) (hpage : 0 < pageSize) (hunits : pageSize ∣ 2 ^ 64)
    (hcursor : cursor ≤ readOnlyEnd) (hlt : cursor < 2 ^ 64)
    (haddress : writableDisplacement readOnlyEnd pageSize (writableStart cursor first) + writableStart cursor first <
      2 ^ 64)
    (hdvd : (first.alignment.toNat : ℤ) ∣ writableDisplacement readOnlyEnd pageSize (writableStart cursor first)) :
    writableStart cursor first < 2 ^ 64 := by
  have hpos := alignment_pos hwf.alignment
  have hwhole := dvd_two_pow_64 hwf.alignment
  have hle : writableStart cursor first ≤ 2 ^ 64 := roundUp_le hpos hwhole hlt.le
  by_contra hge
  have heq : writableStart cursor first = 2 ^ 64 := by omega
  rw [heq] at haddress hdvd
  have hsum := writableDisplacement_add readOnlyEnd pageSize (2 ^ 64)
  have hmod : 2 ^ 64 % pageSize = 0 := Nat.mod_eq_zero_of_dvd hunits
  rw [hmod, Nat.add_zero] at hsum
  have hbehind : readOnlyEnd ≤ roundUp readOnlyEnd pageSize := le_roundUp hpage
  have hdvd' : first.alignment.toNat ∣ roundUp readOnlyEnd pageSize + pageSize := by
    apply Int.natCast_dvd_natCast.mp
    rw [← hsum]
    exact dvd_add hdvd (Int.natCast_dvd_natCast.mpr hwhole)
  -- the least multiple from the cursor on is at most the address
  have hmin := roundUp_le hpos hdvd' (n := cursor) (by omega)
  have hstart : roundUp cursor first.alignment.toNat = 2 ^ 64 := heq
  omega

/-- The thread-local part, if there is one, and the others. -/
theorem placedAt_loaded (hwf : ∀ p ∈ first :: rest, p.Wf) (htail : ∀ p ∈ rest, p.isTls = false)
    (displacement : ℤ) :
    placedAt displacement (writableStart cursor first) (first :: rest) =
      (if first.isTls then [first.at displacement (writableStart cursor first)] else []) ++
        placedAt displacement (writableStart cursor first) (loadedParts (first :: rest)) := by
  have hsame := roundUp_writableStart cursor (hwf first (.head _))
  have hrest : loadedParts rest = rest := by
    apply filter_eq_self.mpr
    intro p hp
    rw [htail p hp]
    rfl
  cases htls : first.isTls with
  | false =>
    have hall : loadedParts (first :: rest) = first :: rest := by
      rw [loadedParts, filter_cons_of_pos (by rw [htls]; rfl)]
      exact congrArg _ hrest
    rw [hall]
    rfl
  | true =>
    have hothers : loadedParts (first :: rest) = rest := by
      rw [loadedParts, filter_cons_of_neg (by rw [htls]; decide)]
      exact hrest
    have hzero := (hwf first (.head _)).tls htls
    rw [hothers, placedAt, hsame, hzero]
    rfl

theorem loadedParts_tls {ps : List ElfImagePart} : ∀ p ∈ loadedParts ps, p.isTls = false := by
  intro p hp
  have hnot := (mem_filter.mp hp).2
  cases htls : p.isTls with
  | false => rfl
  | true =>
    rw [htls] at hnot
    exact absurd hnot (by decide)

/-- The load segment of the writable parts, which end at `fileStop` in the file and at `memoryStop`. -/
def writableHeader (pageSize : BitVec 64) (displacement : ℤ) (start fileStop memoryStop : ℕ) : ElfProgramHeader where
  type := ptLoad
  flags := pfR ||| pfW
  offset := BitVec.ofNat 64 start
  vaddr := BitVec.ofInt 64 (displacement + start)
  filesz := BitVec.ofNat 64 fileStop - BitVec.ofNat 64 start
  memsz := BitVec.ofInt 64 (displacement + memoryStop) - BitVec.ofInt 64 (displacement + start)
  align := pageSize

/-- The second segment as a range of the file and the memory. -/
theorem writableSegment_placed (hwf : ∀ p ∈ first :: rest, p.Wf) (htail : ∀ p ∈ rest, p.isTls = false)
    (page : BitVec 64) :
    let start := writableStart cursor first
    let displacement := writableDisplacement readOnlyEnd pageSize start
    writableSegment page (placedWritable readOnlyEnd pageSize cursor (first :: rest)) =
      some (writableHeader page displacement start (fileEnd start start (loadedParts (first :: rest)))
        (memoryStop start start (loadedParts (first :: rest)))) := by
  dsimp only
  rw [placedWritable]
  generalize writableDisplacement readOnlyEnd pageSize (writableStart cursor first) = displacement
  have hsame := roundUp_writableStart cursor (hwf first (.head _))
  have hends : writableEnds (placedAt displacement (writableStart cursor first) (first :: rest))
      (BitVec.ofNat 64 (writableStart cursor first),
        BitVec.ofInt 64 (displacement + writableStart cursor first)) =
      (BitVec.ofNat 64 (fileEnd (writableStart cursor first) (writableStart cursor first)
          (loadedParts (first :: rest))),
        BitVec.ofInt 64 (displacement + memoryStop (writableStart cursor first) (writableStart cursor first)
          (loadedParts (first :: rest)))) := by
    rw [placedAt_loaded hwf htail, writableEnds, foldl_append, ← writableEnds, ← writableEnds]
    -- the template of a thread-local part does not move the end
    have hskip (e : BitVec 64 × BitVec 64) : writableEnds
        (if first.isTls then [first.at displacement (writableStart cursor first)] else []) e = e := by
      cases htls : first.isTls with
      | false => rfl
      | true =>
        have hat : (first.at displacement (writableStart cursor first)).isTls = true := htls
        change (if (first.at displacement (writableStart cursor first)).isTls = true then e else _) = e
        rw [if_pos hat]
    rw [hskip]
    exact writableEnds_placedAt (fun p hp => hwf p (mem_of_mem_filter hp)) loadedParts_tls
  have hcons : placedAt displacement (writableStart cursor first) (first :: rest) =
      first.at displacement (writableStart cursor first) ::
        placedAt displacement (writableStart cursor first + first.fileSize.toNat) rest := by
    rw [placedAt, hsame]
  rw [hcons] at hends ⊢
  rw [writableSegment]
  have hfile : (first.at displacement (writableStart cursor first)).fileOffset =
      BitVec.ofNat 64 (writableStart cursor first) := rfl
  have haddress : (first.at displacement (writableStart cursor first)).virtualAddress =
      BitVec.ofInt 64 (displacement + writableStart cursor first) := rfl
  rw [hfile, haddress, hends]
  rfl

end Writable

end Mettle.Linker

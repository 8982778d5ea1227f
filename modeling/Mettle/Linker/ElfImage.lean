import Mettle.Linker.Sections

/-!
# The layout of an ELF image

The merged sections with something in them become the parts of the image, in a fixed order with the
read-only ones in front (`linker/elf_image.c`). One walk over the parts assigns file offsets and addresses:
within a segment an address is the file offset plus a displacement, and the first writable part moves the
displacement to a later page. Two load segments map the parts.
-/

namespace Mettle.Linker

/-! ## The parts -/

def pfX : BitVec 32 := 1
def pfW : BitVec 32 := 2
def pfR : BitVec 32 := 4

def shtProgbits : BitVec 32 := 1
def shtNobits : BitVec 32 := 8

def shfWrite : BitVec 64 := 1
def shfAlloc : BitVec 64 := 2
def shfExecinstr : BitVec 64 := 4
def shfTls : BitVec 64 := 1024

/-- `ElfImagePart`. -/
structure ElfImagePart where
  mergedIndex : Fin 7
  name : String
  virtualAddress : BitVec 64 := 0
  fileOffset : BitVec 64 := 0
  fileSize : BitVec 64
  memorySize : BitVec 64
  alignment : BitVec 64
  sectionType : BitVec 32
  sectionFlags : BitVec 64
  isTls : Bool
  deriving DecidableEq, Repr

/-- `elf_image_section_memory_size`. -/
def elfImageSectionMemorySize (s : LinkedSection) : BitVec 64 := if s.size < s.virtualSize then s.virtualSize else s.size

/-- `elf_image_section_has_content`. -/
def elfImageSectionHasContent (s : LinkedSection) : Bool := elfImageSectionMemorySize s ≠ 0

/-- `elf_image_flags_for_kind`. -/
def elfImageFlagsForKind : LinkSectionKind → BitVec 32
  | .text => pfR ||| pfX
  | .rdata | .pdata | .xdata => pfR
  | _ => pfR ||| pfW

/-- `elf_image_section_flags_for_kind`. -/
def elfImageSectionFlagsForKind : LinkSectionKind → BitVec 64
  | .text => shfAlloc ||| shfExecinstr
  | .rdata | .pdata | .xdata => shfAlloc
  | .tls => shfAlloc ||| shfWrite ||| shfTls
  | _ => shfAlloc ||| shfWrite

/-- `elf_image_kind_is_nobits`. -/
def elfImageKindIsNobits (kind : LinkSectionKind) : Bool := kind = .bss ∨ kind = .tls

/-- `elf_image_section_name`. -/
def elfImageSectionName : LinkSectionKind → String
  | .text => ".text"
  | .rdata => ".rodata"
  | .data => ".data"
  | .bss => ".bss"
  | .tls => ".tbss"
  | .pdata => ".pdata"
  | .xdata => ".xdata"
  | .unknown => ".data"

/-- `ELF_IMAGE_ORDER`. -/
def elfImageOrder : List LinkSectionKind := [.text, .rdata, .pdata, .xdata, .tls, .data, .bss]

/-- `elf_image_normalize_tls`, on the section of thread-local data. -/
def normalizeTls (s : LinkedSection) : LinkedSection :=
  let size := if s.size < s.virtualSize then s.virtualSize else s.size
  if size = 0 then s
  else
    let alignment := if 16 < s.alignment then s.alignment else 16
    { s with alignment, virtualSize := linkerAlignUp size alignment }

/-- `elf_image_normalize_tls`. -/
def elfImageNormalizeTls (sections : Fin 7 → LinkedSection) : Fin 7 → LinkedSection := fun k =>
  if linkSectionIndexFromKind .tls = some k then normalizeTls (sections k) else sections k

/-- The part a kind contributes, if it has content; `elf_image_merged_index` is the index of the kind. -/
def elfImagePart (sections : Fin 7 → LinkedSection) (kind : LinkSectionKind) : Option ElfImagePart :=
  (linkSectionIndexFromKind kind).bind fun merged =>
    let s := sections merged
    if elfImageSectionHasContent s then
      some
        { mergedIndex := merged
          name := elfImageSectionName kind
          alignment := if s.alignment ≠ 0 then s.alignment else 1
          memorySize := elfImageSectionMemorySize s
          fileSize := if elfImageKindIsNobits kind then 0 else s.size
          sectionType := if elfImageKindIsNobits kind then shtNobits else shtProgbits
          sectionFlags := elfImageSectionFlagsForKind kind
          isTls := kind = .tls }
    else none

/-- `elf_image_collect_parts`: the parts, and how many are read-only. -/
def elfImageCollectParts (sections : Fin 7 → LinkedSection) : List ElfImagePart × ℕ :=
  (elfImageOrder.filterMap (elfImagePart sections),
    (elfImageOrder.filter fun kind : LinkSectionKind =>
      (elfImagePart sections kind).isSome ∧ elfImageFlagsForKind kind &&& pfW = 0).length)

/-! ## The walk -/

/-- The locals of `elf_image_assign_addresses`, and its two results as far as they are set. -/
structure AddressCursor where
  offset : BitVec 64
  delta : BitVec 64
  address : BitVec 64
  readOnlyEnd : BitVec 64 := 0
  readOnlyFileEnd : BitVec 64 := 0
  deriving DecidableEq, Repr

/-- The switch to the writable parts: a page behind the read-only ones, at the same place in the page as in
the file. -/
def AddressCursor.enterWritable (c : AddressCursor) (pageSize alignment : BitVec 64) : AddressCursor :=
  let offset := linkerAlignUp c.offset alignment
  { c with
    readOnlyEnd := c.address
    readOnlyFileEnd := c.offset
    offset
    delta := linkerAlignUp c.address pageSize + pageSize - (offset - offset % pageSize) }

/-- A part is placed at the cursor. -/
def AddressCursor.assign (c : AddressCursor) (alignment : BitVec 64) (p : ElfImagePart) : ElfImagePart × AddressCursor :=
  let offset := linkerAlignUp c.offset alignment
  let address := offset + c.delta
  ({ p with virtualAddress := address, fileOffset := offset },
    { c with
      offset := if p.fileSize ≠ 0 then offset + p.fileSize else offset
      address := if !p.isTls then address + p.memorySize else address })

/-- The loop of `elf_image_assign_addresses`, from part `i` on. -/
def elfImageAssignFrom (partCount readOnlyCount : ℕ) (pageSize : BitVec 64) :
    ℕ → AddressCursor → List ElfImagePart → List ElfImagePart × AddressCursor
  | _, c, [] => ([], c)
  | i, c, p :: ps =>
    let alignment := if p.alignment ≠ 0 then p.alignment else 1
    let c := if i = readOnlyCount ∧ readOnlyCount ≠ partCount then c.enterWritable pageSize alignment else c
    let (placed, c) := c.assign alignment p
    let (rest, c) := elfImageAssignFrom partCount readOnlyCount pageSize (i + 1) c ps
    (placed :: rest, c)

/-- `elf_image_assign_addresses`: the parts with their places, `read_only_end` and `read_only_file_end`. -/
def elfImageAssignAddresses (parts : List ElfImagePart) (readOnlyCount : ℕ)
    (imageBase pageSize headersSize : BitVec 64) : List ElfImagePart × BitVec 64 × BitVec 64 :=
  let (placed, c) := elfImageAssignFrom parts.length readOnlyCount pageSize 0
    { offset := headersSize, delta := imageBase, address := headersSize + imageBase } parts
  if readOnlyCount = parts.length then (placed, c.address, c.offset)
  else (placed, c.readOnlyEnd, c.readOnlyFileEnd)

/-! ## The program headers -/

def elfEhdrSize : ℕ := 64
def elfPhdrSize : ℕ := 56

def ptLoad : BitVec 32 := 1
def ptDynamic : BitVec 32 := 2
def ptInterp : BitVec 32 := 3
def ptTls : BitVec 32 := 7
def ptGnuStack : BitVec 32 := 0x6474e551

/-- `ElfDynamicBlob`: where a piece of the dynamic linking data lies in its merged section. -/
structure ElfDynamicBlob where
  mergedSectionIndex : Fin 7
  offset : BitVec 64
  size : BitVec 64
  deriving DecidableEq, Repr

/-- The blobs of an active `ElfDynamicPlan` that have program headers. -/
structure ElfDynamicPlan where
  interp : Option ElfDynamicBlob
  dynamic : Option ElfDynamicBlob
  deriving DecidableEq, Repr

/-- A program header, as it is written; `p_paddr` is `p_vaddr`. -/
structure ElfProgramHeader where
  type : BitVec 32
  flags : BitVec 32
  offset : BitVec 64 := 0
  vaddr : BitVec 64 := 0
  filesz : BitVec 64 := 0
  memsz : BitVec 64 := 0
  align : BitVec 64
  deriving DecidableEq, Repr

/-- `elf_image_blob_location`: file offset and address. -/
def elfImageBlobLocation (parts : List ElfImagePart) (blob : ElfDynamicBlob) : Option (BitVec 64 × BitVec 64) :=
  (parts.find? fun p : ElfImagePart => p.mergedIndex = blob.mergedSectionIndex).map fun p =>
    (p.fileOffset + blob.offset, p.virtualAddress + blob.offset)

/-- The header of a blob, when there is one and its section is among the parts. -/
def elfImageBlobHeader (parts : List ElfImagePart) (type flags : BitVec 32) (align : BitVec 64)
    (blob : Option ElfDynamicBlob) : Option ElfProgramHeader :=
  blob.bind fun blob => (elfImageBlobLocation parts blob).map fun (offset, vaddr) =>
    { type, flags, offset, vaddr, filesz := blob.size, memsz := blob.size, align }

/-- The loop over the writable parts: where the file bytes and the memory of the last ones end. -/
def writableEnds (parts : List ElfImagePart) (ends : BitVec 64 × BitVec 64) : BitVec 64 × BitVec 64 :=
  parts.foldl (fun (fileEnd, memoryEnd) p =>
    if p.isTls then (fileEnd, memoryEnd)
    else (if p.fileSize ≠ 0 then p.fileOffset + p.fileSize else fileEnd, p.virtualAddress + p.memorySize)) ends

/-- The load segment of the headers and the read-only parts. -/
def readOnlySegment (imageBase pageSize readOnlyEnd readOnlyFileEnd : BitVec 64) : ElfProgramHeader :=
  { type := ptLoad, flags := pfR ||| pfX, offset := 0, vaddr := imageBase, filesz := readOnlyFileEnd
    memsz := readOnlyEnd - imageBase, align := pageSize }

/-- The load segment of the writable parts, if there are any. -/
def writableSegment (pageSize : BitVec 64) : List ElfImagePart → Option ElfProgramHeader
  | [] => none
  | first :: rest =>
    let (fileEnd, memoryEnd) := writableEnds (first :: rest) (first.fileOffset, first.virtualAddress)
    some
      { type := ptLoad, flags := pfR ||| pfW, offset := first.fileOffset, vaddr := first.virtualAddress
        filesz := fileEnd - first.fileOffset, memsz := memoryEnd - first.virtualAddress, align := pageSize }

/-- `elf_image_write_program_headers`. -/
def elfImageWriteProgramHeaders (parts : List ElfImagePart) (readOnlyCount : ℕ)
    (imageBase pageSize readOnlyEnd readOnlyFileEnd : BitVec 64) (plan : Option ElfDynamicPlan) :
    List ElfProgramHeader :=
  readOnlySegment imageBase pageSize readOnlyEnd readOnlyFileEnd ::
    (writableSegment pageSize (parts.drop readOnlyCount)).toList ++
    (match plan with
      | none => []
      | some plan =>
        (elfImageBlobHeader parts ptInterp pfR 1 plan.interp).toList ++
          (elfImageBlobHeader parts ptDynamic (pfR ||| pfW) 8 plan.dynamic).toList ++
          [{ type := ptGnuStack, flags := pfR ||| pfW, align := 16 }]) ++
    (parts.filter fun p : ElfImagePart => p.isTls).map fun p =>
      { type := ptTls, flags := pfR, offset := p.fileOffset, vaddr := p.virtualAddress, filesz := p.fileSize
        memsz := p.memorySize, align := p.alignment }

/-- `elf_image_count_program_headers`. -/
def elfImageCountProgramHeaders (parts : List ElfImagePart) (readOnlyCount : ℕ) (plan : Option ElfDynamicPlan) : ℕ :=
  1 + (if readOnlyCount ≠ parts.length then 1 else 0) + (parts.countP fun p : ElfImagePart => p.isTls) +
    match plan with
    | none => 0
    | some plan => 1 + plan.interp.toList.length + plan.dynamic.toList.length

/-! ## The layout -/

/-- What `elf_image_emit_executable` has laid out before it applies the relocations and writes the image. -/
structure ElfImageLayout where
  headersSize : ℕ
  parts : List ElfImagePart
  programHeaders : List ElfProgramHeader
  deriving DecidableEq, Repr

/-- The layout of `elf_image_emit_executable`, for the sections with the blobs of the plan in them. -/
def elfImageLayout (sections : Fin 7 → LinkedSection) (plan : Option ElfDynamicPlan) (imageBase pageSize : BitVec 64) :
    ElfImageLayout :=
  let (parts, readOnlyCount) := elfImageCollectParts (elfImageNormalizeTls sections)
  let headersSize := elfEhdrSize + elfImageCountProgramHeaders parts readOnlyCount plan * elfPhdrSize
  let (parts, readOnlyEnd, readOnlyFileEnd) := elfImageAssignAddresses parts readOnlyCount imageBase pageSize
    (BitVec.ofNat 64 headersSize)
  { headersSize
    parts
    programHeaders := elfImageWriteProgramHeaders parts readOnlyCount imageBase pageSize readOnlyEnd
      readOnlyFileEnd plan }

end Mettle.Linker

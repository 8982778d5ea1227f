import Mettle.Lib.Layout
import Mettle.Linker.ElfImage

/-!
# A valid memory map

What a loader relies on: the parts lie apart in the file and in memory, each is aligned, congruent to its
place in the file and mapped by one load segment, and the load segments ascend without overlap. Next to it
stands the condition on the sizes and alignments under which the layout of an image is one.
-/

namespace Mettle.Linker

open Mettle.Lib

/-! ## What a loader relies on -/

namespace ElfImagePart

/-- The bytes of a part in the load image. A thread-local part only has its template there: each thread
gets a block of its memory size elsewhere. -/
def imageSize (p : ElfImagePart) : ℕ := if p.isTls then p.fileSize.toNat else p.memorySize.toNat

def fileRange (p : ElfImagePart) : Set ℕ := Set.Ico p.fileOffset.toNat (p.fileOffset.toNat + p.fileSize.toNat)

def memoryRange (p : ElfImagePart) : Set ℕ := Set.Ico p.virtualAddress.toNat (p.virtualAddress.toNat + p.imageSize)

def IsWritable (p : ElfImagePart) : Prop := p.sectionFlags &&& shfWrite ≠ 0

instance (p : ElfImagePart) : Decidable p.IsWritable := inferInstanceAs (Decidable (_ ≠ _))

end ElfImagePart

namespace ElfProgramHeader

def memoryRange (s : ElfProgramHeader) : Set ℕ := Set.Ico s.vaddr.toNat (s.vaddr.toNat + s.memsz.toNat)

def IsWritable (s : ElfProgramHeader) : Prop := s.flags &&& pfW ≠ 0

/-- A segment brings a part to its address: the memory lies in the segment, and so do the bytes in the file,
at the same distance from its start. -/
structure Maps (s : ElfProgramHeader) (p : ElfImagePart) : Prop where
  above : s.vaddr.toNat ≤ p.virtualAddress.toNat
  within : p.virtualAddress.toNat + p.imageSize ≤ s.vaddr.toNat + s.memsz.toNat
  bytes : p.fileSize ≠ 0 → s.offset.toNat ≤ p.fileOffset.toNat ∧
    p.fileOffset.toNat + p.fileSize.toNat ≤ s.offset.toNat + s.filesz.toNat ∧
    p.fileOffset.toNat + s.vaddr.toNat = p.virtualAddress.toNat + s.offset.toNat

end ElfProgramHeader

/-- The load segments of an image. -/
def ElfImageLayout.loads (l : ElfImageLayout) : List ElfProgramHeader :=
  l.programHeaders.filter fun s : ElfProgramHeader => s.type = ptLoad

/-- The layout of an image is a valid memory map. -/
structure ElfImageLayout.IsMemoryMap (l : ElfImageLayout) (imageBase pageSize : BitVec 64) : Prop where
  files : l.parts.Pairwise fun p q => Disjoint p.fileRange q.fileRange
  memory : l.parts.Pairwise fun p q => Disjoint p.memoryRange q.memoryRange
  headers : ∀ p ∈ l.parts, Disjoint (Set.Ico 0 l.headersSize) p.fileRange ∧
    Disjoint (Set.Ico imageBase.toNat (imageBase.toNat + l.headersSize)) p.memoryRange
  aligned : ∀ p ∈ l.parts, p.alignment.toNat ∣ p.virtualAddress.toNat
  congruent : ∀ p ∈ l.parts, p.virtualAddress.toNat ≡ p.fileOffset.toNat [MOD pageSize.toNat]
  pages : ∀ p ∈ l.parts, ¬ p.IsWritable → ∀ q ∈ l.parts, q.IsWritable →
    ∀ x ∈ p.memoryRange, ∀ y ∈ q.memoryRange, x / pageSize.toNat ≠ y / pageSize.toNat
  mapped : ∀ p ∈ l.parts, ∃ s ∈ l.loads, s.Maps p ∧ (s.IsWritable ↔ p.IsWritable) ∧
    ∀ s' ∈ l.loads, s' ≠ s → Disjoint s'.memoryRange p.memoryRange
  loads : ∀ s ∈ l.loads, s.filesz ≤ s.memsz ∧ s.vaddr.toNat + s.memsz.toNat ≤ 2 ^ 64 ∧
    s.offset.toNat + s.filesz.toNat ≤ 2 ^ 64
  ascending : l.loads.Pairwise fun s t => s.vaddr.toNat + s.memsz.toNat ≤ t.vaddr.toNat

/-! ## When a layout is one -/

/-- Where the file bytes of parts end that are put one after another from `cursor` on. -/
def fileStop : ℕ → List ElfImagePart → ℕ
  | cursor, [] => cursor
  | cursor, p :: ps => fileStop (roundUp cursor p.alignment.toNat + p.fileSize.toNat) ps

/-- Where the memory of the last of them ends, at the places they have in the file. -/
def memoryStop : ℕ → ℕ → List ElfImagePart → ℕ
  | _, front, [] => front
  | cursor, _, p :: ps =>
    let start := roundUp cursor p.alignment.toNat
    memoryStop (start + p.fileSize.toNat) (start + p.memorySize.toNat) ps

/-- The parts of a segment that is `displacement` above its place in the file. What a part occupies in
memory, up to `front`, is over where the next one starts in the file: what it has beyond its file bytes is
padding in front of the next one. -/
def Packed (displacement : ℤ) : ℕ → ℕ → List ElfImagePart → Prop
  | _, _, [] => True
  | cursor, front, p :: ps =>
    let start := roundUp cursor p.alignment.toNat
    (p.alignment.toNat : ℤ) ∣ displacement ∧ front ≤ start ∧
      (p.fileSize ≠ 0 → start + p.fileSize.toNat ≤ 2 ^ 64) ∧
      Packed displacement (start + p.fileSize.toNat) (start + p.memorySize.toNat) ps

instance Packed.decidable (displacement : ℤ) : ∀ cursor front ps, Decidable (Packed displacement cursor front ps)
  | _, _, [] => inferInstanceAs (Decidable True)
  | cursor, _, p :: ps =>
    have := Packed.decidable displacement (roundUp cursor p.alignment.toNat + p.fileSize.toNat)
      (roundUp cursor p.alignment.toNat + p.memorySize.toNat) ps
    inferInstanceAs (Decidable (_ ∧ _ ∧ _ ∧ Packed displacement _ _ ps))

/-- The parts with memory of their own in the image. -/
def loadedParts (parts : List ElfImagePart) : List ElfImagePart := parts.filter fun p : ElfImagePart => !p.isTls

/-- Where the writable segment starts in the file. -/
def writableStart (cursor : ℕ) (first : ElfImagePart) : ℕ := roundUp cursor first.alignment.toNat

/-- How far the writable segment is above its place in the file: its page is the second one behind the
read-only parts. -/
def writableDisplacement (readOnlyEnd pageSize start : ℕ) : ℤ :=
  roundUp readOnlyEnd pageSize + pageSize - (start - start % pageSize : ℕ)

/-- The condition on the parts: the read-only segment fits below `2 ^ 64` and is shorter than that, a page
is a unit of the image base, and the parts of both segments are packed. -/
structure LayoutFits (imageBase pageSize headersSize : ℕ) (readOnly writable : List ElfImagePart) : Prop where
  below : imageBase + memoryStop headersSize headersSize readOnly ≤ 2 ^ 64
  length : memoryStop headersSize headersSize readOnly < 2 ^ 64
  base : readOnly ≠ [] → pageSize ∣ imageBase
  packed : Packed imageBase headersSize headersSize readOnly
  packedWritable : ∀ first ∈ writable.head?,
    let start := writableStart (fileStop headersSize readOnly) first
    let displacement := writableDisplacement (imageBase + memoryStop headersSize headersSize readOnly) pageSize start
    displacement + start < 2 ^ 64 ∧ (first.alignment.toNat : ℤ) ∣ displacement ∧
      displacement + memoryStop start start (loadedParts writable) ≤ 2 ^ 64 ∧
      Packed displacement start start (loadedParts writable)

end Mettle.Linker

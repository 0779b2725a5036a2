import Wirth.Kernel.Loader.Header
import Wirth.Kernel.Mm.AddressSpaces
import Wirth.Lib.Little

namespace Wirth.Kernel.Loader

open Wirth.Lib Wirth.Lib.X86 Wirth.Kernel.Mm

def UserlandImage.InImage (img : UserlandImage) : Event → Prop
  | .read offset => offset.toNat < img.size.toNat
  | _ => True

-- The check of the file size is right about a segment that passes it.
def ProgramHeader.Unwrapped (h : ProgramHeader) (size : Word) : Prop :=
  h.type = ptLoad → h.Passes size → h.offset.toNat + h.filesz.toNat < 2 ^ 32

namespace UserlandImage

def SegmentsUnwrapped (img : UserlandImage) : Nat → Word → Prop
  | 0, _ => True
  | left + 1, ph => (img.headerAt ph).Unwrapped img.size ∧
      (((img.headerAt ph).type = ptLoad → (img.headerAt ph).Passes img.size) →
        SegmentsUnwrapped img left (ph + sizeofProgramHeader))

-- The ends of the table and of the segments that are checked are numbers of 32 bits.
def Unwrapped (img : UserlandImage) : Prop :=
  img.Accepted → img.phoff.toNat + 32 * img.phnum.toNat < 2 ^ 32 ∧
    img.SegmentsUnwrapped img.phnum.toNat img.phoff

variable {img : UserlandImage} {s t : Mm} {es : List Event}

theorem inImage_span {offset : Word} {count : Nat} :
    (∀ o ∈ span offset count, img.InImage (.read o)) ↔
      ∀ o ∈ span offset count, Between 0 img.size.toNat o := by
  simp only [InImage, Between, Nat.zero_le, true_and]

theorem inImage_of_le {offset : Word} {count : Nat} (h : offset.toNat + count ≤ img.size.toNat) :
    ∀ o ∈ span offset count, img.InImage (.read o) :=
  inImage_span.mpr (between_span (Nat.zero_le _) h img.size.isLt.le)

theorem passes_of_ends {ph highest r : Word} (h : Job.Ends (img.loadSegment ph highest) s r t es)
    (hload : (img.headerAt ph).type = ptLoad) : (img.headerAt ph).Passes img.size := by
  obtain ⟨hne, -⟩ | ⟨-, -, ds, hplace, -⟩ := ends_loadSegment.mp h
  · exact absurd hload hne
  · exact (ends_placeSegment.mp hplace).1

section Segments

variable {ph highest : Word} {n : Nat}

theorem always_loadSegment_inImage (hhead : ph.toNat + 28 ≤ img.size.toNat)
    (h : (img.headerAt ph).Unwrapped img.size) :
    Logged.Always img.InImage (img.loadSegment ph highest s) := by
  refine always_loadSegment (inImage_of_le hhead) fun hload => ?_
  refine always_placeSegment (inImage_of_le hhead) (fun _ _ _ _ => trivial) ?_
    (fun _ _ _ _ _ => trivial)
  intro hpasses
  have hwrap := h hload hpasses
  have hfits := hpasses.2
  apply inImage_of_le
  bv_omega

theorem always_loadSegments (htable : ph.toNat + 32 * n ≤ img.size.toNat)
    (h : img.SegmentsUnwrapped n ph) :
    Logged.Always img.InImage (img.loadSegments n ph highest s) := by
  induction n generalizing s ph highest with
  | zero => exact Job.always_pure _ _
  | succ n ih =>
    have hnext : (ph + sizeofProgramHeader).toNat = ph.toNat + 32 := by
      rw [sizeofProgramHeader]
      bv_omega
    rw [loadSegments, Job.always_bind]
    refine ⟨always_loadSegment_inImage (by omega) h.1, ?_⟩
    intro r t ds hends
    exact ih (by omega) (h.2 (passes_of_ends hends))

theorem unwrapped_of_ends {r : Word} (hends : Job.Ends (img.loadSegment ph highest) s r t es)
    (h : ∀ e ∈ es, img.InImage e) : (img.headerAt ph).Unwrapped img.size := by
  intro hload hpasses
  obtain ⟨hne, -⟩ | ⟨-, -, ds, hplace, rfl⟩ := ends_loadSegment.mp hends
  · exact absurd hload hne
  obtain ⟨-, ds', -, -, rfl⟩ := ends_placeSegment.mp hplace
  simp only [List.forall_mem_append] at h
  obtain ⟨hreads, -⟩ := forall_copies.mp h.2.2.2.1
  by_cases hzero : (img.headerAt ph).filesz.toNat = 0
  · omega
  · have hle := ((between_span_iff (Nat.pos_of_ne_zero hzero) img.size.isLt).mp
      (inImage_span.mp hreads)).2
    exact lt_of_le_of_lt hle img.size.isLt

theorem segmentsUnwrapped_of_always
    (hran : ∀ x, Job.Stops (img.loadSegments n ph highest) s x → ¬RanOut x)
    (h : Logged.Always img.InImage (img.loadSegments n ph highest s)) :
    img.SegmentsUnwrapped n ph := by
  induction n generalizing s ph highest with
  | zero => trivial
  | succ n ih =>
    rw [loadSegments, Job.always_bind] at h
    obtain ⟨r, t, ds, hends⟩ | ⟨x, hstops⟩ := Job.ends_or_stops (img.loadSegment ph highest) s
    · refine ⟨unwrapped_of_ends hends (hends.always.mp h.1), fun _ => ?_⟩
      refine ih ?_ (h.2 r t ds hends)
      intro x hx
      exact hran x (hends.stops_bind.mpr hx)
    · -- only the image can have stopped the loader
      have hx := hran x (Job.stops_bind.mpr (.inl hstops))
      obtain ⟨hload, hpasses⟩ | hout := stops_loadSegment hstops
      · exact ⟨fun _ h => absurd h hpasses, fun h => absurd (h hload) hpasses⟩
      · exact absurd hout hx

end Segments

theorem phnum_lt (img : UserlandImage) : img.phnum.toNat < 2 ^ 16 := by
  have h0 := (img.data 44).toNat_lt
  have h1 := (img.data (44 + 1)).toNat_lt
  rw [phnum, halfAt, BitVec.toNat_ofNat]
  omega

theorem Accepted.table_le (h : img.Accepted)
    (hwrap : img.phoff.toNat + 32 * img.phnum.toNat < 2 ^ 32) :
    img.phoff.toNat + 32 * img.phnum.toNat ≤ img.size.toNat := by
  have hend : (img.phoff + img.phnum * sizeofProgramHeader).toNat =
      img.phoff.toNat + 32 * img.phnum.toNat := by
    rw [BitVec.toNat_add, BitVec.toNat_mul, show sizeofProgramHeader.toNat = 32 from rfl]
    omega
  have htable := h.table
  rw [h.entrySize, BitVec.lt_def, hend] at htable
  omega

-- With a wrapped end the first header lies behind an image that leaves two megabytes free.
theorem Accepted.unwrapped_of_first (h : img.Accepted) (hsize : img.size.toNat ≤ 2 ^ 32 - 2 ^ 21)
    {highest : Word}
    (hall : Logged.Always img.InImage (img.loadSegments img.phnum.toNat img.phoff highest s)) :
    img.phoff.toNat + 32 * img.phnum.toNat < 2 ^ 32 := by
  have hnum := img.phnum_lt
  obtain ⟨n, hn⟩ : ∃ n, img.phnum.toNat = n + 1 := by
    refine ⟨img.phnum.toNat - 1, ?_⟩
    have hne := h.nonempty
    bv_omega
  rw [hn, loadSegments, Job.always_bind, loadSegment, word,
    (reading_ends _ _ _ _).always_bind, forall_reads, span_succ, List.forall_mem_cons] at hall
  have hfirst : img.phoff.toNat < img.size.toNat := hall.1.1.1
  omega

def ofBytes (bytes : List UInt8) : UserlandImage :=
  ⟨fun offset => bytes.getD offset.toNat 0, BitVec.ofNat 32 bytes.length⟩

def elfHeader (entry phoff phnum : Nat) : List UInt8 :=
  [0x7F, 0x45, 0x4C, 0x46] ++ List.replicate 12 0 ++ [2, 0, 3, 0, 1, 0, 0, 0] ++ le32 entry ++
    le32 phoff ++ List.replicate 8 0 ++ [52, 0, 32, 0, UInt8.ofNat phnum, 0] ++ List.replicate 6 0

def loadHeader (offset vaddr filesz memsz : Nat) : List UInt8 :=
  le32 1 ++ le32 offset ++ le32 vaddr ++ le32 vaddr ++ le32 filesz ++ le32 memsz ++ le32 6 ++
    le32 0x1000

end UserlandImage

-- Some frames above the kernel, whose first page is mapped.

def sampleMap : List MemoryMapEntryView := [⟨0x00500000, 0x20000, 1⟩]

def samplePmm : Pmm := Pmm.init sampleMap 0x00100000 0x00200000

theorem samplePmm_counted : samplePmm.Counted := by
  exact Pmm.init_counted _ _ _

def Mm.emptyTables : Mm :=
  ⟨samplePmm, Spaces.blankVmm.cleared, samplePmm_counted, Vmm.Sound.cleared Spaces.blankVmm⟩

def Mm.sample : Mm := Mm.emptyTables.mapped 0x00100000 0x00100000 true

namespace UserlandImage

def smallImage : UserlandImage :=
  ofBytes (elfHeader 0x08000000 52 1 ++ loadHeader 84 0x08000000 1 2 ++ [0xF4])

-- The table starts 32 bytes before the end of the address space, so its end is 0.
def wrappedImage : UserlandImage := ofBytes (elfHeader 0 0xFFFFFFE0 1)

end UserlandImage

end Wirth.Kernel.Loader

import Wirth.Kernel.Mm.Frames
import Wirth.Kernel.Mm.PageMap
import Wirth.Kernel.UserSafety
import Wirth.Lib.Job
import Wirth.Lib.Text

namespace Wirth.Kernel.Loader

open Wirth.Lib Wirth.Lib.X86 Wirth.Kernel.Mm

structure Mm where
  pmm : Pmm
  vmm : Vmm
  counted : pmm.Counted
  sound : vmm.Sound

-- What stands in memory from `img.data` on, and how much of it is the image. It lies in memory
-- of the kernel that loading does not change.
structure UserlandImage where
  data : Word → UInt8
  size : Word

-- What the loader does to the image, to the page tables and to memory. A byte is stored at an
-- address, which the tables translate.
inductive Event where
  | read (offset : Word)
  | map (page frame : Word) (writable : Bool)
  | store (address physical : Word) (value : UInt8)
  deriving DecidableEq

-- The loader logs a text and returns, or the processor stops it.
inductive Halt where
  | rejected (text : Str)
  | fault
  deriving DecidableEq

abbrev Loading (α : Type) : Type := Job Event Halt Mm α

def reject (c : Prop) [Decidable c] (text : String) : Loading Unit := Job.stopIf c (.rejected (lit text))

def sizeofELFHeader : Word := 52

def sizeofProgramHeader : Word := 32

def ptLoad : Word := 1

def pfW : Word := 2

def em386 : Word := 3

namespace UserlandImage

variable (img : UserlandImage)

-- Little-endian fields.

def halfAt (offset : Word) : Word :=
  BitVec.ofNat 32 ((img.data offset).toNat + 2 ^ 8 * (img.data (offset + 1)).toNat)

def wordAt (offset : Word) : Word :=
  BitVec.ofNat 32 ((img.data offset).toNat + 2 ^ 8 * (img.data (offset + 1)).toNat +
    2 ^ 16 * (img.data (offset + 2)).toNat + 2 ^ 24 * (img.data (offset + 3)).toNat)

def reading {α : Type} (offset : Word) (count : Nat) (a : α) : Loading α :=
  fun s => ⟨(.ok a, s), (span offset count).map .read⟩

def byte (offset : Word) : Loading UInt8 := reading offset 1 (img.data offset)

def half (offset : Word) : Loading Word := reading offset 2 (img.halfAt offset)

def word (offset : Word) : Loading Word := reading offset 4 (img.wordAt offset)

end UserlandImage

theorem allocFrame_counted {p : Pmm} (h : p.Counted) : p.allocFrame.2.Counted := by
  obtain ⟨-, halloc⟩ | ⟨f, -, -, halloc⟩ := Pmm.allocFrame_spec h
  · rw [halloc]
    exact h
  · rw [halloc]
    exact Pmm.setBit_counted h f

theorem Mm.counted_allocFrame (s : Mm) : s.pmm.allocFrame.2.Counted :=
  allocFrame_counted s.counted

def allocFrame : Loading Word := fun s =>
  pure (.ok (BitVec.ofNat 32 s.pmm.allocFrame.1), { s with
    pmm := s.pmm.allocFrame.2
    counted := s.counted_allocFrame })

def mapPage (page phys : Word) (writable : Bool) : Loading Bool := fun s =>
  ⟨(.ok (s.vmm.mapPage page phys writable true).1, { s with
      vmm := (s.vmm.mapPage page phys writable true).2
      sound := s.sound.call (.map page phys writable true) }),
    if (s.vmm.mapPage page phys writable true).1 then [.map page phys writable] else []⟩

def store (address : Word) (value : UInt8) : Loading Unit := fun s =>
  match s.vmm.lookup address with
  | none => pure (.error .fault, s)
  | some frame => ⟨(.ok (), s), [.store address (frame ||| pageOffset address) value]⟩

structure ProgramHeader where
  type : Word
  offset : Word
  vaddr : Word
  filesz : Word
  memsz : Word
  flags : Word
  deriving DecidableEq

namespace ProgramHeader

variable (h : ProgramHeader)

def segEnd : Word := h.vaddr + h.memsz

def pageStart : Word := h.vaddr &&& 0xFFFFF000

def pageEnd : Word := (h.segEnd + 0xFFF) &&& 0xFFFFF000

def pageCount : Nat := (h.pageEnd.toNat - h.pageStart.toNat) / 4096

def writable : Bool := h.flags &&& pfW ≠ 0

end ProgramHeader

namespace UserlandImage

variable (img : UserlandImage)

def entry : Word := img.wordAt 24

def phoff : Word := img.wordAt 28

def phentsize : Word := img.halfAt 42

def phnum : Word := img.halfAt 44

def headerAt (ph : Word) : ProgramHeader :=
  ⟨img.wordAt ph, img.wordAt (ph + 4), img.wordAt (ph + 8), img.wordAt (ph + 16),
    img.wordAt (ph + 20), img.wordAt (ph + 24)⟩

def matchesFrom (img : UserlandImage) : List UInt8 → Word → Loading Bool
  | [], _ => pure true
  | c :: rest, offset => do
      let b ← img.byte offset
      if b = c then matchesFrom img rest (offset + 1) else pure false

def isElf : Loading Bool := img.matchesFrom [0x7F, chr 'E', chr 'L', chr 'F'] 0

def mapPages (img : UserlandImage) (ph : Word) : Nat → Word → Loading Unit
  | 0, _ => pure ()
  | left + 1, page => do
      let phys ← allocFrame
      reject (phys = 0) "[loader] out of physical frames"
      let flags ← img.word (ph + 24)
      let ok ← mapPage page phys (flags &&& pfW ≠ 0)
      reject (ok = false) "[loader] map user segment failed"
      mapPages img ph left (page + 0x1000)

def copyBytes (img : UserlandImage) : Nat → Word → Word → Loading Unit
  | 0, _, _ => pure ()
  | len + 1, dst, src => do
      let b ← img.byte src
      store dst b
      copyBytes img len (dst + 1) (src + 1)

def zeroBytes : Nat → Word → Loading Unit
  | 0, _ => pure ()
  | len + 1, dst => do
      store dst 0
      zeroBytes len (dst + 1)

def fillSegment (h : ProgramHeader) : Loading Unit := do
  img.copyBytes h.filesz.toNat h.vaddr h.offset
  if h.filesz < h.memsz then zeroBytes (h.memsz - h.filesz).toNat (h.vaddr + h.filesz)

-- A header of the type `PT_LOAD`: its fields are read, checked and used.
def placeSegment (ph : Word) (h : ProgramHeader) : Loading Unit := do
  let memsz ← img.word (ph + 20)
  let filesz ← img.word (ph + 16)
  reject (memsz < filesz) "[loader] memsz < filesz"
  let _vaddr ← img.word (ph + 8)
  let offset ← img.word (ph + 4)
  reject (img.size < offset + filesz) "[loader] segment data out of bounds"
  img.mapPages ph h.pageCount h.pageStart
  img.fillSegment h

-- One round of the loop over the program headers, with the highest address so far.
def loadSegment (ph highest : Word) : Loading Word := do
  let type ← img.word ph
  if type ≠ ptLoad then pure highest
  else
    let h := img.headerAt ph
    img.placeSegment ph h
    pure (if highest < h.segEnd then h.segEnd else highest)

def loadSegments (img : UserlandImage) : Nat → Word → Word → Loading Word
  | 0, _, highest => pure highest
  | left + 1, ph, highest => do
      let highest ← img.loadSegment ph highest
      loadSegments img left (ph + sizeofProgramHeader) highest

def readHeader : Loading Unit := do
  reject (img.size < sizeofELFHeader) "[loader] image too small"
  let elf ← img.isElf
  reject (elf = false) "[loader] invalid ELF magic"
  let machine ← img.half 18
  reject (machine ≠ em386) "[loader] unsupported machine type"
  let phentsize ← img.half 42
  reject (phentsize ≠ sizeofProgramHeader) "[loader] invalid ph entry size"
  let phnum ← img.half 44
  reject (phnum = 0) "[loader] no loadable segments"
  let _entry ← img.word 24
  let phoff ← img.word 28
  reject (img.size < phoff + phnum * phentsize) "[loader] program headers out of bounds"

def stackPage (highest : Word) : Word := (highest + 0x1FFFF) &&& 0xFFFFF000

def mapStack (highest : Word) : Loading Word := do
  reject (highest = 0) "[loader] no PT_LOAD segment"
  let phys ← allocFrame
  reject (phys = 0) "[loader] map user stack failed"
  let ok ← mapPage (stackPage highest) phys true
  reject (ok = false) "[loader] map user stack failed"
  pure (stackPage highest + 0x1000 - 16)

def load : Loading (Word × Word) := do
  img.readHeader
  let highest ← img.loadSegments img.phnum.toNat img.phoff 0
  let userStackTop ← mapStack highest
  pure (img.entry, userStackTop)

end UserlandImage

end Wirth.Kernel.Loader

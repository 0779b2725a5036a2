import Wirth.Kernel.Mm.Heap
import Wirth.Lib.Bitmap

namespace Wirth.Kernel.Mm

open Wirth.Lib

def kMaxFrames : Nat := 1024 * 1024

def kBitmapSize : Nat := kMaxFrames / 32

def kMemoryTypeAvailable : UInt32 := 1

def kLowMemoryReserveEnd : Nat := 0x00100000

structure MemoryMapEntryView where
  baseAddr : UInt64
  length : UInt64
  type : UInt32

structure Pmm where
  bitmap : Bitmap
  totalFrames : Nat
  freeFrames : Nat

namespace Pmm

def alignDown (value alignment : Nat) : Nat := value &&& complement (alignment - 1)

def frameIndexValid (frame : Nat) : Bool := frame < kMaxFrames

def setBit (p : Pmm) (frame : Nat) : Pmm :=
  if frameIndexValid frame = false then p
  else if p.bitmap.isSet frame then p
  else { p with
    bitmap := p.bitmap.raise frame
    freeFrames := if 0 < p.freeFrames then p.freeFrames - 1 else p.freeFrames }

def clearBit (p : Pmm) (frame : Nat) : Pmm :=
  if frameIndexValid frame = false then p
  else if p.bitmap.isSet frame then
    { p with bitmap := p.bitmap.lower frame, freeFrames := uint32 (p.freeFrames + 1) }
  else p

-- The frames of the addresses `start`, `start + kPageSize`, ... below `stop`.
def framesBetween (start stop : Nat) : List Nat :=
  List.range' (start / kPageSize) ((stop - start + kPageSize - 1) / kPageSize)

-- Both range functions round outwards and stay below the last frame.
def rangeFrames (startAddr endAddr : Nat) : List Nat :=
  let start := alignDown startAddr kPageSize
  let stop := roundUp endAddr kPageSize
  let maxPhys := kMaxFrames * kPageSize
  framesBetween start (if maxPhys < stop then maxPhys else stop)

def reserveRange (p : Pmm) (startAddr endAddr : Nat) : Pmm :=
  (rangeFrames startAddr endAddr).foldl setBit p

def unreserveRange (p : Pmm) (startAddr endAddr : Nat) : Pmm :=
  (rangeFrames startAddr endAddr).foldl clearBit p

def mapVisitor (p : Pmm) (entry : MemoryMapEntryView) : Pmm :=
  if entry.type ≠ kMemoryTypeAvailable ∨ entry.length = 0 then p
  else
    let end64 := entry.baseAddr + entry.length
    if 0x100000000 ≤ entry.baseAddr then p
    else
      let start := uint32 entry.baseAddr.toNat
      let stop := if 0x100000000 ≤ end64 then 0xFFFFF000 else uint32 end64.toNat
      if stop ≤ start then p else p.unreserveRange start stop

-- The entries are those that the multiboot information lists, in its order.
def init (entries : List MemoryMapEntryView) (kernelStart kernelEnd : Nat) : Pmm :=
  let p : Pmm := ⟨fun _ => 0xFFFFFFFF, kMaxFrames, 0⟩
  ((entries.foldl mapVisitor p).reserveRange 0 kLowMemoryReserveEnd).reserveRange kernelStart
    kernelEnd

-- The inner loop: `none` goes on to the next word, `some none` gives up.
def scanBits (p : Pmm) (word : Nat) : Nat → Nat → Option (Option Nat)
  | 0, _ => none
  | left + 1, bit =>
      let frame := word * 32 + bit
      if frameIndexValid frame = false then some none
      else if p.bitmap.isSet frame = false then some (some frame)
      else scanBits p word left (bit + 1)

def scanWords (p : Pmm) : Nat → Nat → Option Nat
  | 0, _ => none
  | left + 1, word =>
      if p.bitmap word = 0xFFFFFFFF then scanWords p left (word + 1)
      else match scanBits p word 32 0 with
        | some found => found
        | none => scanWords p left (word + 1)

def allocFrame (p : Pmm) : Nat × Pmm :=
  if p.freeFrames = 0 then (0, p)
  else match scanWords p kBitmapSize 0 with
    | none => (0, p)
    | some frame => (uint32 (frame * kPageSize), p.setBit frame)

def freeFrame (p : Pmm) (physAddr : Nat) : Pmm :=
  if physAddr % kPageSize ≠ 0 then p else p.clearBit (physAddr / kPageSize)

end Pmm

end Wirth.Kernel.Mm

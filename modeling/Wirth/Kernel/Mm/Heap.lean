import Wirth.Lib.Ended
import Wirth.Lib.Memory

namespace Wirth.Kernel.Mm

open Wirth.Lib

def kPageSize : Nat := 4096

def kHeapHeaderMagic : Nat := 0x57485245

def sizeofHeapHeader : Nat := 16

def sizeofFreeBlock : Nat := 8

-- The frames and page tables behind the heap, with the bytes that physical memory holds.
class Paging (P : Type) where
  allocFrame : P → Nat × P
  freeFrame : P → Nat → P
  mapPage : P → (virt phys : Nat) → (write user : Bool) → Bool × P
  contents : P → Nat → UInt8

structure Heap (P : Type) where
  heapStart : Nat
  heapLimit : Nat
  heapBreak : Nat
  heapMappedEnd : Nat
  freeList : Nat
  activeBytes : Nat
  memory : Memory
  paging : P

-- A loop along the list that visits more nodes than there are addresses has met one of them
-- twice, and goes on forever.
def rounds : Nat := 2 ^ 32 + 1

def alignUp (value alignment : Nat) : Nat :=
  roundUp value (if alignment = 0 then 1 else alignment)

-- The place for the next block of an allocator that may start at `start`.
structure Place where
  header : Nat
  payload : Nat
  deriving DecidableEq

def place (start alignment : Nat) : Place :=
  let header := alignUp (uint32 (start + sizeofHeapHeader)) alignment
  let header := if header < start then start else header
  let payload := alignUp (uint32 (header + sizeofHeapHeader)) alignment
  if payload < uint32 (header + sizeofHeapHeader) then
    let payload := alignUp (uint32 (start + sizeofHeapHeader)) alignment
    ⟨uint32 (payload + 2 ^ 32 - sizeofHeapHeader), payload⟩
  else ⟨header, payload⟩

structure Fit where
  header : Nat
  payload : Nat
  allocEnd : Nat
  prefixSize : Nat
  suffixSize : Nat
  deriving DecidableEq

-- A rest that cannot hold a list node stays with the allocation.
def Fit.trimmed (f : Fit) (stop : Nat) : Fit :=
  if 0 < f.suffixSize ∧ f.suffixSize < sizeofFreeBlock then
    { f with allocEnd := stop, suffixSize := 0 }
  else f

def fit (start stop size alignment : Nat) : Option Fit :=
  let p := place start alignment
  if p.header < start then none
  else
    let allocEnd := uint32 (p.payload + size)
    if stop < allocEnd then none
    else if 0 < p.header - start ∧ p.header - start < sizeofFreeBlock then
      let payload := alignUp (uint32 (start + sizeofHeapHeader)) alignment
      let allocEnd := uint32 (payload + size)
      if stop < allocEnd then none
      else some (Fit.trimmed ⟨start, payload, allocEnd, 0, stop - allocEnd⟩ stop)
    else some (Fit.trimmed ⟨p.header, p.payload, allocEnd, p.header - start, stop - allocEnd⟩ stop)

-- The fields of a list node.

def sizeOf (m : Memory) (block : Nat) : Nat := m.read32 block

def nextOf (m : Memory) (block : Nat) : Nat := m.read32 (block + 4)

def seek (m : Memory) (start : Nat) : Nat → Nat → Nat → Ended (Nat × Nat)
  | 0, _, _ => .diverges
  | left + 1, prev, curr =>
      if curr ≠ 0 ∧ curr < start then seek m start left curr (nextOf m curr)
      else .returned (prev, curr)

def firstFit (m : Memory) (size alignment : Nat) : Nat → Nat → Ended (Option (Nat × Fit))
  | 0, _ => .diverges
  | left + 1, curr =>
      if curr = 0 then .returned none
      else match fit curr (uint32 (curr + sizeOf m curr)) size alignment with
        | none => firstFit m size alignment left (nextOf m curr)
        | some f => .returned (some (curr, f))

namespace Heap

variable {P : Type}

def setSize (h : Heap P) (block size : Nat) : Heap P :=
  { h with memory := h.memory.write32 block size }

def setNext (h : Heap P) (block next : Nat) : Heap P :=
  { h with memory := h.memory.write32 (block + 4) next }

def link (h : Heap P) (prev node curr : Nat) : Heap P :=
  let h := h.setNext node curr
  if prev = 0 then { h with freeList := node } else h.setNext prev node

def absorb (h : Heap P) (block next : Nat) : Heap P :=
  let h := h.setSize block (uint32 (sizeOf h.memory block + sizeOf h.memory next))
  h.setNext block (nextOf h.memory next)

def mergePrev (h : Heap P) (prev node : Nat) : Nat × Heap P :=
  if prev ≠ 0 ∧ uint32 (prev + sizeOf h.memory prev) = node then (prev, h.absorb prev node)
  else (node, h)

def mergeNext (h : Heap P) (node : Nat) : Heap P :=
  let curr := nextOf h.memory node
  if curr ≠ 0 ∧ uint32 (node + sizeOf h.memory node) = curr then h.absorb node curr else h

def insertFreeBlock (h : Heap P) (start size : Nat) : Ended (Heap P) :=
  if size < sizeofFreeBlock then .returned h
  else do
    let h := (h.setSize start size).setNext start 0
    let (prev, curr) ← seek h.memory start rounds 0 h.freeList
    let (node, h) := (h.link prev start curr).mergePrev prev start
    .returned (h.mergeNext node)

def unlink (h : Heap P) (prev curr : Nat) : Heap P :=
  if prev = 0 then { h with freeList := nextOf h.memory curr }
  else h.setNext prev (nextOf h.memory curr)

def giveBack (h : Heap P) (start size : Nat) : Ended (Heap P) :=
  if sizeofFreeBlock ≤ size then h.insertFreeBlock start size else .returned h

def writeHeader (h : Heap P) (header allocEnd size : Nat) : Heap P :=
  { h with
    memory := (((h.memory.write32 header header).write32 (header + 4)
      (uint32 (allocEnd + 2 ^ 32 - header))).write32 (header + 8) size).write32 (header + 12)
      kHeapHeaderMagic
    activeBytes := uint32 (h.activeBytes + size) }

-- The search never moves `prev`, which is null when the block is taken out: the blocks in front
-- of it leave the list too.
def takeBlock (h : Heap P) (curr : Nat) (f : Fit) (size : Nat) : Ended (Nat × Heap P) := do
  let h ← (h.unlink 0 curr).giveBack curr f.prefixSize
  let h ← h.giveBack f.allocEnd f.suffixSize
  .returned (f.payload, h.writeHeader f.header f.allocEnd size)

def allocateFromFreeList (h : Heap P) (size alignment : Nat) : Ended (Nat × Heap P) := do
  match ← firstFit h.memory size alignment rounds h.freeList with
  | none => .returned (0, h)
  | some (curr, f) => h.takeBlock curr f size

section Bump

variable [Paging P]

def showPage (h : Heap P) (phys : Nat) (paging : P) : Heap P :=
  { h with
    memory := fun i =>
      if h.heapMappedEnd ≤ i ∧ i < h.heapMappedEnd + kPageSize then
        Paging.contents paging (phys + (i - h.heapMappedEnd))
      else h.memory i
    heapMappedEnd := uint32 (h.heapMappedEnd + kPageSize)
    paging := paging }

def mapNextHeapPage (h : Heap P) : Bool × Heap P :=
  if h.heapLimit ≤ h.heapMappedEnd then (false, h)
  else
    let (phys, paging) := Paging.allocFrame h.paging
    if phys = 0 then (false, { h with paging := paging })
    else
      let (mapped, paging) := Paging.mapPage paging h.heapMappedEnd phys true false
      if mapped then (true, h.showPage phys paging)
      else (false, { h with paging := Paging.freeFrame paging phys })

def mapUpTo (target : Nat) : Nat → Heap P → Ended (Bool × Heap P)
  | 0, _ => .diverges
  | left + 1, h =>
      if h.heapMappedEnd < target then
        let (grown, h) := h.mapNextHeapPage
        if grown then mapUpTo target left h else .returned (false, h)
      else .returned (true, h)

def allocateFromBump (h : Heap P) (size alignment : Nat) : Ended (Nat × Heap P) :=
  let p := place h.heapBreak alignment
  let allocEnd := uint32 (p.payload + size)
  if allocEnd < p.payload ∨ h.heapLimit < allocEnd then .returned (0, h)
  else do
    let (mapped, h) ← mapUpTo allocEnd rounds h
    if mapped then
      .returned (p.payload, { h with heapBreak := allocEnd }.writeHeader p.header allocEnd size)
    else .returned (0, h)

def alloc (h : Heap P) (size alignment : Nat) : Ended (Nat × Heap P) :=
  if size = 0 then .returned (0, h)
  else do
    let alignment := if alignment = 0 then 1 else alignment
    let (ptr, h) ← h.allocateFromFreeList size alignment
    if ptr ≠ 0 then .returned (ptr, h) else h.allocateFromBump size alignment

end Bump

def release (h : Heap P) (payloadSize : Nat) : Heap P :=
  { h with activeBytes := if payloadSize ≤ h.activeBytes then h.activeBytes - payloadSize else 0 }

def free (h : Heap P) (ptr : Nat) : Ended (Heap P) :=
  if ptr = 0 then .returned h
  else
    let header := uint32 (ptr + 2 ^ 32 - sizeofHeapHeader)
    if h.memory.read32 (header + 12) ≠ kHeapHeaderMagic then .returned h
    else
      let h := h.release (h.memory.read32 (header + 8))
      let h := { h with memory := h.memory.write32 (header + 12) 0 }
      h.insertFreeBlock (h.memory.read32 header) (h.memory.read32 (header + 4))

def init (heapStart heapLimit : Nat) (memory : Memory) (paging : P) : Heap P :=
  let start := alignUp heapStart kPageSize
  let limit := alignUp heapLimit kPageSize
  ⟨start, if limit ≤ start then start else limit, start, start, 0, 0, memory, paging⟩

def mappedBytes (h : Heap P) : Nat := uint32 (h.heapMappedEnd + 2 ^ 32 - h.heapStart)

def usedBytes (h : Heap P) : Nat := h.activeBytes

end Heap

end Wirth.Kernel.Mm

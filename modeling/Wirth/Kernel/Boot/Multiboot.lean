import Wirth.Kernel.Mm.Pmm
import Wirth.Lib.Job

namespace Wirth.Kernel.Boot

open Wirth.Lib

def kTagTypeEnd : Nat := 0

def kTagTypeModule : Nat := 3

def kTagTypeMemoryMap : Nat := 6

def sizeofTagHeader : Nat := 8

def sizeofMemoryMapTag : Nat := 16

def sizeofMemoryMapEntry : Nat := 24

def sizeofModuleTag : Nat := 16

structure Read where
  address : Nat
  length : Nat
  deriving DecidableEq

-- The boot code looks at memory, calls visitors that change the data of their caller, and stops short
-- only when it has used up the rounds that its loops were given.
abbrev Scan (S α : Type) : Type := Job Read Unit S α

section Primitives

variable {w : Nat} {S V : Type}

def readU8 (m : Memory) (p : BitVec w) : Scan S UInt8 := fun s => ⟨(.ok (m p.toNat), s), [⟨p.toNat, 1⟩]⟩

def readU32 (m : Memory) (p : BitVec w) : Scan S Nat := fun s =>
  ⟨(.ok (m.read32 p.toNat), s), [⟨p.toNat, 4⟩]⟩

def readU64 (m : Memory) (p : BitVec w) : Scan S Nat := fun s =>
  ⟨(.ok (m.read32 p.toNat + 2 ^ 32 * m.read32 (p.toNat + 4)), s), [⟨p.toNat, 8⟩]⟩

def visit (visitor : V → S → S) (view : V) : Scan S Unit := fun s => ⟨(.ok (), visitor view s), []⟩

-- `uintptr_t` has 32 bits in the one kernel and 64 in the other.
def uintptr (w n : Nat) : BitVec w := BitVec.ofNat w n

def align8 (value : BitVec w) : BitVec w := (value + 7) &&& ~~~(7 : BitVec w)

end Primitives

inductive Verdict where
  | goOn (found : Bool)
  | settled (found : Bool)

section Tags

variable {w : Nat} {S : Type} (m : Memory)

def tagLoop (infoEnd : BitVec w) (onTag : BitVec w → Nat → Nat → Bool → Scan S Verdict) :
    Nat → BitVec w → Bool → Scan S Bool
  | 0, _, _ => Job.stop ()
  | rounds + 1, cursor, found =>
      if cursor + uintptr w sizeofTagHeader ≤ infoEnd then do
        let type ← readU32 m cursor
        if type = kTagTypeEnd then pure found
        else do
          let size ← readU32 m (cursor + 4)
          let verdict ← onTag cursor type size found
          match verdict with
          | .settled found => pure found
          | .goOn found => tagLoop infoEnd onTag rounds (align8 (cursor + uintptr w size)) found
      else pure found

def walkTags (onTag : BitVec w → Nat → Nat → Bool → Scan S Verdict) (rounds : Nat) (multibootInfoAddr : UInt32) :
    Scan S Bool :=
  let info := uintptr w multibootInfoAddr.toNat
  if info = 0 then pure false
  else do
    let totalSize ← readU32 m info
    tagLoop m (info + uintptr w totalSize) onTag rounds (info + 8) false

end Tags

section MemoryMap

variable {w : Nat} {S : Type} (m : Memory) (visitor : Mm.MemoryMapEntryView → S → S)

def entryLoop (tag entriesEnd : BitVec w) : Nat → BitVec w → Scan S Unit
  | 0, _ => Job.stop ()
  | rounds + 1, entryCursor => do
      let entrySize ← readU32 m (tag + 8)
      if entryCursor + uintptr w entrySize ≤ entriesEnd ∧ sizeofMemoryMapEntry ≤ entrySize then do
        let baseAddr ← readU64 m entryCursor
        let length ← readU64 m (entryCursor + 8)
        let type ← readU32 m (entryCursor + 16)
        visit visitor ⟨UInt64.ofNat baseAddr, UInt64.ofNat length, UInt32.ofNat type⟩
        entryLoop tag entriesEnd rounds (entryCursor + uintptr w entrySize)
      else pure ()

def memoryMapTag (rounds : Nat) (cursor : BitVec w) (type size : Nat) (found : Bool) : Scan S Verdict :=
  if type = kTagTypeMemoryMap ∧ sizeofMemoryMapTag ≤ size then do
    entryLoop m visitor cursor (cursor + uintptr w size) rounds (cursor + uintptr w sizeofMemoryMapTag)
    pure (.goOn true)
  else pure (.goOn found)

end MemoryMap

def visitMemoryMap (w : Nat) {S : Type} (m : Memory) (visitor : Option (Mm.MemoryMapEntryView → S → S))
    (multibootInfoAddr : UInt32) (rounds : Nat) : Scan S Bool :=
  match visitor with
  | none => pure false
  | some visitor => walkTags (w := w) m (memoryMapTag m visitor rounds) rounds multibootInfoAddr

structure ModuleView (w : Nat) where
  startAddr : Nat
  endAddr : Nat
  string : BitVec w
  deriving DecidableEq

section Modules

variable {w : Nat} {S : Type} (m : Memory) (visitor : ModuleView w → S → S)

def moduleTag (cursor : BitVec w) (type size : Nat) (found : Bool) : Scan S Verdict :=
  if type = kTagTypeModule ∧ sizeofModuleTag ≤ size then do
    let modStart ← readU32 m (cursor + 8)
    let modEnd ← readU32 m (cursor + 12)
    visit visitor ⟨modStart, modEnd, cursor + uintptr w sizeofModuleTag⟩
    pure (.goOn true)
  else pure (.goOn found)

end Modules

def visitModules (w : Nat) {S : Type} (m : Memory) (visitor : Option (ModuleView w → S → S))
    (multibootInfoAddr : UInt32) (rounds : Nat) : Scan S Bool :=
  match visitor with
  | none => pure false
  | some visitor => walkTags m (moduleTag m visitor) rounds multibootInfoAddr

end Wirth.Kernel.Boot

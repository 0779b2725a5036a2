import Wirth.Lib.Logged
import Wirth.Lib.X86.Span

namespace Wirth.Kernel.UserSafety

open Wirth.Lib Wirth.Lib.X86

def kUserSpaceStart : Word := 0x08000000

def kUserSpaceEnd : Word := 0xC0000000

inductive Access where
  | load (address : Word)
  | store (address : Word) (value : UInt8)
  deriving DecidableEq

def Access.address : Access → Word
  | load a => a
  | store a _ => a

def loadByte (memory : Word → UInt8) (a : Word) : Logged Access UInt8 := ⟨memory a, [.load a]⟩

def isUserPointer (ptr : Word) : Bool := kUserSpaceStart ≤ ptr && ptr < kUserSpaceEnd

def isUserBuffer (ptr size : Word) : Bool :=
  if size = 0 then false
  else if ptr < kUserSpaceStart then false
  else
    let stop := ptr + size
    if stop < ptr then false
    else if kUserSpaceEnd < stop then false
    else true

def findZero (memory : Word → UInt8) : Nat → Word → Logged Access Bool
  | 0, _ => pure false
  | left + 1, a => do
      let c ← loadByte memory a
      if c = 0 then pure true else findZero memory left (a + 1)

def isUserString (memory : Word → UInt8) (ptr maxLen : Word) : Logged Access Bool :=
  if isUserPointer ptr = false then pure false else findZero memory maxLen.toNat ptr

def InUserSpace (e : Access) : Prop := isUserPointer e.address = true

theorem isUserPointer_iff (ptr : Word) :
    isUserPointer ptr = true ↔ 0x08000000 ≤ ptr.toNat ∧ ptr.toNat < 0xC0000000 := by
  rw [isUserPointer, kUserSpaceStart, kUserSpaceEnd, Bool.and_eq_true, decide_eq_true_iff,
    decide_eq_true_iff, BitVec.le_def, BitVec.lt_def]
  rfl

theorem isUserBuffer_spec {ptr size : Word} (h : isUserBuffer ptr size = true) :
    0x08000000 ≤ ptr.toNat ∧ ptr.toNat + size.toNat ≤ 0xC0000000 := by
  have hsize : size ≠ 0 := by
    rintro rfl
    cases h
  rw [isUserBuffer, if_neg hsize] at h
  by_cases hlo : ptr < kUserSpaceStart
  · rw [if_pos hlo] at h
    cases h
  by_cases hwrap : ptr + size < ptr
  · rw [if_neg hlo, if_pos hwrap] at h
    cases h
  by_cases hhi : kUserSpaceEnd < ptr + size
  · grind
  simp only [kUserSpaceStart, kUserSpaceEnd] at hlo hhi
  bv_omega

end Wirth.Kernel.UserSafety

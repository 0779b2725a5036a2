import Wirth.Kernel.Mm.HeapAccounting
import Wirth.Kernel.Task.Runs

namespace Wirth.Kernel.Mm

open Wirth.Lib

def Allocation.bytes (a : Allocation) : Block := ⟨a.payload, a.size⟩

section Bytes

variable {P : Type} {s : HeapState P} {blocks : List Block} {a c : Allocation}

theorem HeapState.Inv.bytes_within (hi : s.Inv blocks) (ha : a ∈ s.live) :
    s.heap.heapStart ≤ a.bytes.start ∧ a.bytes.stop ≤ s.heap.heapLimit := by
  have ho := hi.owned a ha
  have hpayload := ho.payload_eq
  have hlower := ho.lower
  have hfits := ho.fits
  have hupper := ho.upper
  have hbreak := hi.layout.break_le_limit
  grind [Allocation.bytes, Block.stop]

theorem HeapState.Inv.bytes_apart (hi : s.Inv blocks) (ha : a ∈ s.live) (hc : c ∈ s.live)
    (hapart : (blockOf s.heap.memory a).Apart (blockOf s.heap.memory c)) :
    a.bytes.Apart c.bytes := by
  have hpayload := (hi.owned a ha).payload_eq
  have hfits := (hi.owned a ha).fits
  have hpayload' := (hi.owned c hc).payload_eq
  have hfits' := (hi.owned c hc).fits
  grind [Block.Apart, Allocation.bytes, Block.stop]

end Bytes

end Wirth.Kernel.Mm

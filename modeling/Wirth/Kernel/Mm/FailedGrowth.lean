import Wirth.Kernel.Mm.AddressSpaces
import Wirth.Kernel.Mm.Frames
import Wirth.Kernel.Mm.Refusals

namespace Wirth.Kernel.Mm

open Wirth.Lib Wirth.Lib.X86

-- The frame allocator, the page tables and physical memory behind the heap.
structure Ram where
  pmm : Pmm
  vmm : Vmm
  bytes : Nat → UInt8

def wordAt (address : Nat) : Word := BitVec.ofNat 32 address

instance ramPaging : Paging Ram where
  allocFrame r := (r.pmm.allocFrame.1, { r with pmm := r.pmm.allocFrame.2 })
  freeFrame r physAddr := { r with pmm := r.pmm.freeFrame physAddr }
  mapPage r virt phys write user :=
    ((r.vmm.mapPage (wordAt virt) (wordAt phys) write user).1,
      { r with vmm := (r.vmm.mapPage (wordAt virt) (wordAt phys) write user).2 })
  contents r address := r.bytes address

def takenFrames (before after : Heap Ram) : Finset Nat := before.paging.pmm.free \ after.paging.pmm.free

-- Every one of them stands behind a page that the call has added to the heap.
def FramesMapped (before after : Heap Ram) : Prop :=
  ∀ f ∈ takenFrames before after, ∃ v, before.heapMappedEnd ≤ v ∧ v < after.heapMappedEnd ∧
    kPageSize ∣ v ∧ after.paging.vmm.virtToPhys (wordAt v) = wordAt (f * kPageSize)

-- The heap, the frames that its calls have taken and kept, and the frames that others have.
structure Machine where
  heap : Heap Ram
  owned : Finset Nat
  others : List Nat

namespace Machine

def withRam (s : Machine) (ram : Ram) : Machine := { s with heap := { s.heap with paging := ram } }

-- Calls of the heap as before. Others take frames and give back their own, map and unmap pages,
-- those of the heap too, and write to physical memory.
inductive Reachable (kernelStart kernelEnd : Nat) : Machine → Prop
  | boot (entries : List MemoryMapEntryView) (vmm : Vmm) (bytes : Nat → UInt8) (memory : Memory)
      (hend : kernelEnd ≤ 0xFFFFF000) : Reachable kernelStart kernelEnd
      ⟨Heap.init 0xD0000000 0xD1000000 memory
        ⟨Pmm.init entries kernelStart kernelEnd, vmm.init, bytes⟩, ∅, []⟩
  | alloc {s : Machine} {h' : Heap Ram} {size alignment ptr : Nat}
      (hs : Reachable kernelStart kernelEnd s)
      (hret : s.heap.alloc size alignment = .returned (ptr, h')) (hin : h'.heapStart ≤ h'.heapBreak) :
      Reachable kernelStart kernelEnd ⟨h', s.owned ∪ takenFrames s.heap h', s.others⟩
  | free {s : Machine} {h' : Heap Ram} {ptr : Nat} (hs : Reachable kernelStart kernelEnd s)
      (hret : s.heap.free ptr = .returned h') : Reachable kernelStart kernelEnd { s with heap := h' }
  | store {s : Machine} (address : Nat) (value : UInt8) (hs : Reachable kernelStart kernelEnd s) :
      Reachable kernelStart kernelEnd
        { s with heap := { s.heap with memory := Function.update s.heap.memory address value } }
  | frame {s : Machine} (c : FrameCall) (hs : Reachable kernelStart kernelEnd s)
      (hpermits : FrameState.Permits ⟨s.heap.paging.pmm, s.others⟩ c) :
      Reachable kernelStart kernelEnd
        { s.withRam { s.heap.paging with pmm := (FrameState.call ⟨s.heap.paging.pmm, s.others⟩ c).pmm } with
          others := (FrameState.call ⟨s.heap.paging.pmm, s.others⟩ c).taken }
  | page {s : Machine} (c : PageCall) (hs : Reachable kernelStart kernelEnd s) :
      Reachable kernelStart kernelEnd
        (s.withRam { s.heap.paging with vmm := (s.heap.paging.vmm.call c).2 })
  | write {s : Machine} (bytes : Nat → UInt8) (hs : Reachable kernelStart kernelEnd s) :
      Reachable kernelStart kernelEnd (s.withRam { s.heap.paging with bytes := bytes })

end Machine

namespace Heap

-- What the heap may count on, with the frames of its pages, the last page first.
structure Stock (kernelStart kernelEnd : Nat) (h : Heap Ram) (owned others : List Nat) : Prop where
  frames : FrameState.Inv kernelStart kernelEnd
    ⟨h.paging.pmm, owned.map (fun f => f * kPageSize) ++ others⟩
  sound : h.paging.vmm.Sound
  start : h.heapStart = 0xD0000000
  limit : h.heapLimit = 0xD1000000
  mapped : h.heapMappedEnd = h.heapStart + kPageSize * owned.length
  below : h.heapMappedEnd ≤ h.heapLimit

structure GrownBy (frames : List Nat) (h h' : Heap Ram) : Prop where
  fresh : ∀ f ∈ frames, f ∈ h.paging.pmm.free
  free_iff : ∀ f, f ∈ h'.paging.pmm.free ↔ f ∈ h.paging.pmm.free ∧ f ∉ frames
  mapped : ∀ f ∈ frames, ∃ v, h.heapMappedEnd ≤ v ∧ v < h'.heapMappedEnd ∧ kPageSize ∣ v ∧
    h'.paging.vmm.lookup (wordAt v) = some (wordAt (f * kPageSize))
  kept : ∀ v, v < h.heapMappedEnd → h'.paging.vmm.lookup (wordAt v) = h.paging.vmm.lookup (wordAt v)
  grows : h.heapMappedEnd ≤ h'.heapMappedEnd

section Growing

variable {kernelStart kernelEnd : Nat} {h h' h'' : Heap Ram} {owned others frames : List Nat}

theorem GrownBy.refl (h : Heap Ram) : GrownBy [] h h :=
  ⟨by simp, by simp, by simp, fun _ _ => rfl, le_refl _⟩

theorem GrownBy.trans {more : List Nat} (h1 : GrownBy frames h h') (h2 : GrownBy more h' h'') :
    GrownBy (more ++ frames) h h'' := by
  refine ⟨?_, ?_, ?_, ?_, h1.grows.trans h2.grows⟩
  · intro f hf
    rcases List.mem_append.mp hf with hf | hf
    · exact ((h1.free_iff f).mp (h2.fresh f hf)).1
    · exact h1.fresh f hf
  · intro f
    rw [h2.free_iff, h1.free_iff, List.mem_append, not_or, and_assoc, and_comm (a := f ∉ frames)]
  · intro f hf
    rcases List.mem_append.mp hf with hf | hf
    · obtain ⟨v, hlo, hhi, hdvd, hlookup⟩ := h2.mapped f hf
      exact ⟨v, h1.grows.trans hlo, hhi, hdvd, hlookup⟩
    · obtain ⟨v, hlo, hhi, hdvd, hlookup⟩ := h1.mapped f hf
      exact ⟨v, hlo, hhi.trans_le h2.grows, hdvd, (h2.kept v hhi).trans hlookup⟩
  · intro v hv
    rw [h2.kept v (hv.trans_le h1.grows), h1.kept v hv]

theorem GrownBy.takenFrames_eq (hg : GrownBy frames h h') : takenFrames h h' = frames.toFinset := by
  ext f
  rw [takenFrames, Finset.mem_sdiff, hg.free_iff, List.mem_toFinset]
  constructor
  · grind
  · intro hmem
    exact ⟨hg.fresh f hmem, fun hfree => hfree.2 hmem⟩

theorem virtToPhys_wordAt {v : Vmm} {address f : Nat} (hdvd : kPageSize ∣ address)
    (h : v.lookup (wordAt address) = some (wordAt (f * kPageSize))) :
    v.virtToPhys (wordAt address) = wordAt (f * kPageSize) := by
  have hoffset : pageOffset (wordAt address) = 0#32 := by
    apply BitVec.eq_of_toNat_eq
    rw [toNat_pageOffset, wordAt, BitVec.toNat_ofNat]
    simp only [kPageSize] at hdvd
    simp only [BitVec.toNat_zero]
    omega
  rw [Vmm.virtToPhys_of_lookup h, hoffset, BitVec.or_zero]

theorem GrownBy.framesMapped (hg : GrownBy frames h h') : FramesMapped h h' := by
  intro f hf
  rw [hg.takenFrames_eq, List.mem_toFinset] at hf
  obtain ⟨v, hlo, hhi, hdvd, hlookup⟩ := hg.mapped f hf
  grind [virtToPhys_wordAt]

theorem pageOf_ne {v limit : Nat} (hlimit : limit < 2 ^ 32) (hdvd : kPageSize ∣ limit) (hv : v < limit) :
    pageOf (wordAt limit) ≠ pageOf (wordAt v) := by
  rw [ne_eq, pageOf_eq_iff_div, wordAt, wordAt, BitVec.toNat_ofNat, BitVec.toNat_ofNat,
    Nat.mod_eq_of_lt hlimit, Nat.mod_eq_of_lt (hv.trans hlimit)]
  simp only [kPageSize] at hdvd
  omega

theorem frameOf_wordAt (f : Nat) : frameOf (wordAt (f * kPageSize)) = wordAt (f * kPageSize) := by
  grind [frameOf_eq_self_iff, wordAt, kPageSize]

variable (hst : Stock kernelStart kernelEnd h owned others)

include hst

theorem Stock.dvd : kPageSize ∣ h.heapMappedEnd := by
  rw [hst.mapped, hst.start]
  exact Nat.dvd_add (by decide) (Nat.dvd_mul_right _ _)

theorem Stock.allocFrame :
    h.paging.pmm.allocFrame = (0, h.paging.pmm) ∨
      ∃ f ∈ h.paging.pmm.free, f * kPageSize ≠ 0 ∧
        h.paging.pmm.allocFrame = (f * kPageSize, h.paging.pmm.setBit f) ∧
        FrameState.Inv kernelStart kernelEnd
          ⟨h.paging.pmm.setBit f, f * kPageSize :: (owned.map (fun f => f * kPageSize) ++ others)⟩ := by
  rcases Pmm.allocFrame_spec hst.frames.counted with ⟨-, hnone⟩ | ⟨f, hf, -, hsome⟩
  · exact Or.inl hnone
  have hlow := FrameState.pos_of_not_reserved fun hr => hst.frames.reserved f hr hf
  have hne : f * kPageSize ≠ 0 := by
    simp only [kLowMemoryReserveEnd] at hlow
    omega
  have hinv := hst.frames.alloc
  simp only [FrameState.call] at hsome hinv
  grind

theorem Stock.mapNextHeapPage :
    (∃ paging, h.mapNextHeapPage = (false, { h with paging := paging }) ∧
      Stock kernelStart kernelEnd { h with paging := paging } owned others ∧
      GrownBy [] h { h with paging := paging }) ∨
    ∃ f memory mappedEnd paging, h.mapNextHeapPage =
        (true, { h with memory := memory, heapMappedEnd := mappedEnd, paging := paging }) ∧
      Stock kernelStart kernelEnd
        { h with memory := memory, heapMappedEnd := mappedEnd, paging := paging } (f :: owned) others ∧
      GrownBy [f] h { h with memory := memory, heapMappedEnd := mappedEnd, paging := paging } := by
  by_cases hfull : h.heapLimit ≤ h.heapMappedEnd
  · refine Or.inl ⟨h.paging, ?_, hst, GrownBy.refl h⟩
    rw [Heap.mapNextHeapPage, if_pos hfull]
  rcases hst.allocFrame with hnone | ⟨f, hf, hne, hsome, hinv⟩
  · refine Or.inl ⟨h.paging, ?_, hst, GrownBy.refl h⟩
    simp only [Heap.mapNextHeapPage, if_neg hfull, Paging.allocFrame, hnone, if_true]
  have hfree : ∀ g, g ∈ (h.paging.pmm.setBit f).free ↔ g ∈ h.paging.pmm.free ∧ g ≠ f := by
    intro g
    rw [Pmm.setBit_free, Finset.mem_erase, and_comm]
  obtain ⟨ok, hok⟩ : ∃ ok, ok = (h.paging.vmm.mapPage (wordAt h.heapMappedEnd) (wordAt (f * kPageSize))
    true false).1 := ⟨_, rfl⟩
  cases ok with
  | false =>
    have hsame := Vmm.mapPage_unchanged hok.symm
    have hback := hinv.free (List.mem_cons_self)
    simp only [FrameState.call, List.erase_cons_head] at hback
    refine Or.inl ⟨{ h.paging with
      pmm := (h.paging.pmm.setBit f).freeFrame (f * kPageSize) }, ?_, ?_, ?_⟩
    · simp only [Heap.mapNextHeapPage, if_neg hfull, Paging.allocFrame, hsome, if_neg hne, Paging.mapPage,
        ← hok, hsame, Bool.false_eq_true, if_false, Paging.freeFrame]
    · exact ⟨hback, hst.sound, hst.start, hst.limit, hst.mapped, hst.below⟩
    · refine ⟨by simp, ?_, by simp, fun _ _ => rfl, le_refl _⟩
      intro g
      simp only [Pmm.freeFrame_eq, Pmm.mem_clearBit_free, hfree, List.not_mem_nil, not_false_eq_true,
        and_true]
      constructor
      · grind
      · intro hg
        by_cases hgf : g = f
        · exact Or.inr ⟨hgf, (Pmm.mem_free.mp hf).1⟩
        · exact Or.inl ⟨hg, hgf⟩
  | true =>
    have hdvd := hst.dvd
    have hlimit := hst.limit
    have hstart := hst.start
    have hmapped := hst.mapped
    have hnext : uint32 (h.heapMappedEnd + kPageSize) = h.heapMappedEnd + kPageSize :=
      uint32_eq_self (by simp only [kPageSize]; omega)
    have hlt : h.heapMappedEnd < 2 ^ 32 := by omega
    have hlookup : ∀ v, (h.paging.vmm.mapPage (wordAt h.heapMappedEnd) (wordAt (f * kPageSize))
        true false).2.lookup v = if pageOf (wordAt h.heapMappedEnd) = pageOf v
          then some (wordAt (f * kPageSize)) else h.paging.vmm.lookup v := by
      intro v
      have hcall := Vmm.call_lookup hst.sound
        (.map (wordAt h.heapMappedEnd) (wordAt (f * kPageSize)) true false) v
      simp only [Vmm.call, ← hok, true_and, PageCall.virt, PageCall.target, frameOf_wordAt] at hcall
      exact hcall
    obtain ⟨ram, hram⟩ : ∃ ram : Ram, ram = { h.paging with
      pmm := h.paging.pmm.setBit f
      vmm := (h.paging.vmm.mapPage (wordAt h.heapMappedEnd) (wordAt (f * kPageSize)) true false).2 } :=
        ⟨_, rfl⟩
    refine Or.inr ⟨f, (h.showPage (f * kPageSize) ram).memory, h.heapMappedEnd + kPageSize, ram, ?_, ?_, ?_⟩
    · simp only [Heap.mapNextHeapPage, if_neg hfull, Paging.allocFrame, hsome, if_neg hne, Paging.mapPage,
        ← hok, if_true, showPage, hnext, hram]
    · rw [hram]
      refine ⟨hinv, ?_, hstart, hlimit, ?_, ?_⟩
      · exact hst.sound.call (.map (wordAt h.heapMappedEnd) (wordAt (f * kPageSize)) true false)
      · simp [Nat.mul_succ, Nat.add_assoc, hmapped]
      grind [kPageSize]
    · rw [hram]
      refine ⟨by simpa using hf, by simpa using hfree, ?_, ?_, Nat.le_add_right _ _⟩
      · grind
      · intro v hv
        simp only [hlookup]
        rw [if_neg (pageOf_ne hlt hdvd hv)]

theorem Stock.mapUpTo {target left : Nat} {ok : Bool}
    (hret : mapUpTo target left h = .returned (ok, h')) :
    ∃ frames, Stock kernelStart kernelEnd h' (frames ++ owned) others ∧ GrownBy frames h h' := by
  induction left generalizing h owned with
  | zero => cases hret
  | succ left ih =>
    by_cases hmore : h.heapMappedEnd < target
    · rcases hst.mapNextHeapPage with
        ⟨paging, hfail, hst', hgrown⟩ | ⟨f, memory, mappedEnd, paging, hpage, hst', hgrown⟩
      · simp only [Heap.mapUpTo, if_pos hmore, hfail, Bool.false_eq_true, if_false] at hret
        cases hret
        exact ⟨[], hst', hgrown⟩
      · simp only [Heap.mapUpTo, if_pos hmore, hpage, if_true] at hret
        obtain ⟨frames, hst'', hgrown'⟩ := ih hst' hret
        refine ⟨frames ++ [f], ?_, hgrown.trans hgrown'⟩
        rw [List.append_assoc]
        exact hst''
    · simp only [Heap.mapUpTo, if_neg hmore] at hret
      cases hret
      exact ⟨[], hst, GrownBy.refl _⟩

variable {size alignment ptr : Nat}

theorem Stock.bump (hret : h.allocateFromBump size alignment = .returned (ptr, h')) :
    ∃ frames, Stock kernelStart kernelEnd h' (frames ++ owned) others ∧ GrownBy frames h h' := by
  unfold allocateFromBump at hret
  simp only at hret
  split_ifs at hret with hfail
  · cases hret
    exact ⟨[], hst, GrownBy.refl _⟩
  obtain ⟨⟨ok, h1⟩, hmap, hret⟩ := Ended.bind_eq_returned.mp hret
  obtain ⟨frames, hst', hgrown⟩ := hst.mapUpTo hmap
  split_ifs at hret with hok
  · cases hret
    exact ⟨frames, ⟨hst'.frames, hst'.sound, hst'.start, hst'.limit, hst'.mapped, hst'.below⟩,
      ⟨hgrown.fresh, hgrown.free_iff, hgrown.mapped, hgrown.kept, hgrown.grows⟩⟩
  grind

theorem Stock.sides {memory : Memory} {freeList active : Nat} : Stock kernelStart kernelEnd
      { h with memory := memory, freeList := freeList, activeBytes := active } owned others :=
  ⟨hst.frames, hst.sound, hst.start, hst.limit, hst.mapped, hst.below⟩

theorem Stock.alloc (hret : h.alloc size alignment = .returned (ptr, h')) :
    ∃ frames, Stock kernelStart kernelEnd h' (frames ++ owned) others ∧ GrownBy frames h h' := by
  by_cases hsize : size = 0
  · rw [Heap.alloc, if_pos hsize] at hret
    cases hret
    exact ⟨[], hst, GrownBy.refl h⟩
  rcases alloc_cases hsize hret with
    ⟨-, hbump⟩ | ⟨curr, f, h1, -, hrest, ⟨-, -, rfl⟩ | ⟨-, hbump⟩⟩
  · exact hst.bump hbump
  · rw [hrest]
    exact ⟨[], hst.sides, by simp, by simp, by simp, fun _ _ => rfl, le_refl _⟩
  · rw [hrest] at hbump
    obtain ⟨frames, hst', hgrown⟩ := hst.sides.bump hbump
    exact ⟨frames, hst', hgrown.fresh, hgrown.free_iff, hgrown.mapped, hgrown.kept, hgrown.grows⟩

end Growing

end Heap

namespace FrameState

variable {kernelStart kernelEnd : Nat} {pmm : Pmm} {mine others taken : List Nat}

theorem Inv.perm (hi : Inv kernelStart kernelEnd ⟨pmm, mine⟩) (hperm : mine.Perm taken) :
    Inv kernelStart kernelEnd ⟨pmm, taken⟩ :=
  ⟨hi.counted, hi.reserved, hperm.nodup hi.nodup, fun a ha => hi.frames a (hperm.mem_iff.mpr ha)⟩

theorem Inv.call_others (hi : Inv kernelStart kernelEnd ⟨pmm, mine ++ others⟩) {c : FrameCall}
    (hpermits : Permits ⟨pmm, others⟩ c) :
    Inv kernelStart kernelEnd ⟨(call ⟨pmm, others⟩ c).pmm, mine ++ (call ⟨pmm, others⟩ c).taken⟩ := by
  cases c with
  | alloc =>
    have hinv := hi.alloc
    simp only [call] at hinv ⊢
    split_ifs at hinv ⊢ with hnone
    · exact hinv
    · exact hinv.perm List.perm_middle.symm
  | free physAddr =>
    have hmem : physAddr ∈ others := hpermits
    have hnot : physAddr ∉ mine := fun hin =>
      (List.nodup_append.mp hi.nodup).2.2 physAddr hin physAddr hmem rfl
    have hinv := hi.free (List.mem_append_right mine hmem)
    grind [call]

end FrameState

namespace Machine

open Heap

variable {kernelStart kernelEnd : Nat} {s : Machine}

theorem Reachable.reached (hs : Reachable kernelStart kernelEnd s) : s.heap.Reached := by
  induction hs with
  | boot entries vmm bytes memory hend => exact .boot memory _
  | alloc _ hret hin ih => exact .alloc ih hret hin
  | free _ hret ih => exact .free ih hret
  | store address value _ ih => exact .store address value ih
  | frame _ _ _ ih | page _ _ ih | write _ _ ih => exact .repage _ ih

theorem Reachable.stock (hs : Reachable kernelStart kernelEnd s) :
    ∃ frames, Stock kernelStart kernelEnd s.heap frames s.others ∧ s.owned = frames.toFinset := by
  induction hs with
  | boot entries vmm bytes memory hend =>
    refine ⟨[], ⟨FrameState.init_inv entries hend, Vmm.Sound.init vmm, ?_, ?_, ?_, ?_⟩, rfl⟩ <;>
      simp only [init] <;> decide
  | alloc _ hret _ ih =>
    obtain ⟨frames, hst, howned⟩ := ih
    obtain ⟨more, hst', hgrown⟩ := hst.alloc hret
    refine ⟨more ++ frames, hst', ?_⟩
    rw [howned, hgrown.takenFrames_eq, List.toFinset_append, Finset.union_comm]
  | free _ hret ih =>
    obtain ⟨frames, hst, howned⟩ := ih
    refine ⟨frames, ?_, howned⟩
    rw [free_rest hret]
    exact hst.sides
  | store address value _ ih =>
    obtain ⟨frames, hst, howned⟩ := ih
    exact ⟨frames, hst.sides, howned⟩
  | frame c _ hpermits ih =>
    obtain ⟨frames, hst, howned⟩ := ih
    exact ⟨frames, ⟨hst.frames.call_others hpermits, hst.sound, hst.start, hst.limit, hst.mapped,
      hst.below⟩, howned⟩
  | page c _ ih =>
    obtain ⟨frames, hst, howned⟩ := ih
    exact ⟨frames, ⟨hst.frames, hst.sound.call c, hst.start, hst.limit, hst.mapped, hst.below⟩, howned⟩
  | write bytes _ ih =>
    obtain ⟨frames, hst, howned⟩ := ih
    exact ⟨frames, ⟨hst.frames, hst.sound, hst.start, hst.limit, hst.mapped, hst.below⟩, howned⟩

theorem owned_card (hs : Reachable kernelStart kernelEnd s) :
    s.owned.card = s.heap.mappedBytes / kPageSize := by
  obtain ⟨frames, hst, howned⟩ := hs.stock
  have hnodup : frames.Nodup := by
    have hall := (List.nodup_append.mp hst.frames.nodup).1
    exact hall.of_map _
  have hmapped := hst.mapped
  have hbelow := hst.below
  have hbytes : s.heap.mappedBytes = kPageSize * frames.length := by
    rw [mappedBytes, hmapped, uint32]
    rw [hmapped, hst.start, hst.limit] at hbelow
    omega
  rw [howned, List.toFinset_card_of_nodup hnodup, hbytes, Nat.mul_div_cancel_left _ (by decide)]

end Machine

namespace Heap

-- A request that fails leaves nothing behind but pages of the heap.
def LeaksNothing (h : Heap Ram) (size alignment : Nat) : Prop :=
  ∀ h', h.alloc size alignment = .returned (0, h') → h.Kept h' ∧ FramesMapped h h'

-- The result is null although a block was taken: the block is at address zero.
def GivesOutNull (h : Heap Ram) (size alignment : Nat) : Prop :=
  size ≠ 0 ∧ (∃ h', h.alloc size alignment = .returned (0, h')) ∧
    ((∃ block, h.search size alignment = .returned (some block)) ∨ h.ServedAtBreak size alignment)

section Leaks

variable {kernelStart kernelEnd : Nat} {h : Heap Ram} {owned others : List Nat} {size alignment k : Nat}

theorem leaksNothing_iff (hb : h.Bounds) (hst : Stock kernelStart kernelEnd h owned others)
    (alignment : Nat) (hsize : size < 2 ^ 32) :
    h.LeaksNothing size alignment ↔ ¬h.GivesOutNull size alignment := by
  constructor
  · rintro hleaks ⟨hpos, ⟨h', hret⟩, hserved⟩
    obtain ⟨hnone, hnot⟩ := (refused_iff hb alignment (Nat.pos_of_ne_zero hpos) hsize).mp
      ⟨h', hret, (hleaks h' hret).1⟩
    grind
  · intro hnull h' hret
    obtain ⟨frames, -, hgrown⟩ := hst.alloc hret
    refine ⟨?_, hgrown.framesMapped⟩
    by_cases hzero : size = 0
    · rw [Heap.alloc, if_pos hzero] at hret
      cases hret
      exact ⟨rfl, rfl, rfl, fun _ _ => rfl⟩
    have hnone : h.search size alignment = .returned none := by
      rcases alloc_cases hzero hret with ⟨hnone, -⟩ | ⟨curr, f, h1, hfound, -, -⟩
      · exact hnone
      · exact absurd ⟨hzero, ⟨h', hret⟩, Or.inl ⟨_, hfound⟩⟩ hnull
    have hnot : ¬h.ServedAtBreak size alignment := fun hserved =>
      hnull ⟨hzero, ⟨h', hret⟩, Or.inr hserved⟩
    obtain ⟨h1, hret1, hkept⟩ :=
      (refused_iff hb alignment (Nat.pos_of_ne_zero hzero) hsize).mpr ⟨hnone, hnot⟩
    cases hret.symm.trans hret1
    exact hkept

theorem fit_payload_ne_zero {b : Block} {f : Fit} (hk : k < 30) (hlo : 0xD0000000 ≤ b.start)
    (hhi : b.stop ≤ 0xD1000000) (hfit : fit b.start b.stop size (2 ^ k) = some f) : f.payload ≠ 0 := by
  have hstart : b.start ≤ b.stop := Nat.le_add_right _ _
  obtain ⟨hheader, hpayload, -⟩ := place_below hlo (hstart.trans hhi) hk
  have hprefix : ¬(0 < (place b.start (2 ^ k)).header - b.start ∧
      (place b.start (2 ^ k)).header - b.start < sizeofFreeBlock) := by
    simp only [sizeofFreeBlock]
    omega
  have htrimmed : ∀ (g : Fit) (stop : Nat), (g.trimmed stop).payload = g.payload := by
    intro g stop
    unfold Fit.trimmed
    split_ifs <;> rfl
  simp only [fit, if_neg hprefix] at hfit
  grind

-- With the blocks of the list in the heap, only the largest alignments lead to address zero.
theorem not_givesOutNull {blocks : List Block} (hb : h.Bounds) (ht : h.Tidy blocks)
    (hin : Within h.heapStart h.heapBreak blocks) (hk : k < 30) : ¬h.GivesOutNull size (2 ^ k) := by
  rintro ⟨hpos, ⟨h', hret⟩, hserved⟩
  obtain ⟨hlo, hhi⟩ := hb.place_range
  have hfound : ∀ curr f, h.search size (2 ^ k) = .returned (some (curr, f)) → f.payload ≠ 0 := by
    intro curr f hsearch
    rw [search, atLeastOne_two_pow] at hsearch
    rcases firstFit_spec size (2 ^ k) ht.listed ht.length_lt ht.fits with
      hnone | ⟨front, b, back, g, rfl, hfit, hfirst⟩
    · cases hsearch.symm.trans hnone
    · obtain ⟨hblo, hbhi⟩ := hin b (by simp)
      rw [hb.start] at hblo
      grind [fit_payload_ne_zero]
  rcases alloc_cases hpos hret with
    ⟨hnone, hbump⟩ | ⟨curr, f, h1, hsearch, -, ⟨hne, hzero, -⟩ | ⟨hzero, -⟩⟩
  · rcases hserved with ⟨block, hblock⟩ | hserved
    · cases hnone.symm.trans hblock
    · rcases allocateFromBump_cases size (2 ^ k) hb.page with ⟨hnot, -⟩ | ⟨-, h1, hdone, -⟩
      · exact hnot hserved
      · grind [place_below, atLeastOne_two_pow]
  · exact hne hzero.symm
  · exact hfound curr f hsearch hzero

end Leaks

end Heap

namespace Machine

open Heap

-- In every state of the machine, a request that fails leaks nothing exactly when the null that it
-- gives back is not a block that was taken, and the heap has as many frames as pages. With the free
-- list in good order, no alignment below 2^30 gives out address zero.
theorem failed_growth_iff {kernelStart kernelEnd size : Nat} {s : Machine}
    (hs : Reachable kernelStart kernelEnd s) (hsize : size < 2 ^ 32) (alignment : Nat) :
    (s.heap.LeaksNothing size alignment ↔ ¬s.heap.GivesOutNull size alignment) ∧
      s.owned.card = s.heap.mappedBytes / kPageSize ∧
      ∀ blocks k, s.heap.Tidy blocks → Within s.heap.heapStart s.heap.heapBreak blocks → k < 30 →
        ¬s.heap.GivesOutNull size (2 ^ k) := by
  obtain ⟨frames, hst, -⟩ := hs.stock
  have hb := hs.reached.bounds
  exact ⟨leaksNothing_iff hb hst alignment hsize, owned_card hs,
    fun blocks k ht hin hk => not_givesOutNull hb ht hin hk⟩

-- The machine after `kernel_main` has set up memory, with no frame to give.
def bare (vmm : Vmm) : Machine :=
  ⟨init 0xD0000000 0xD1000000 (fun _ => 0) ⟨Pmm.init [] 0x100000 0x180000, vmm, fun _ => 0⟩, ∅, []⟩

theorem bare_reachable (vmm : Vmm) : Reachable 0x100000 0x180000 (bare vmm.init) :=
  .boot _ _ _ _ (by decide)

theorem bare_vmm (vmm : Vmm) : (bare vmm).heap.paging.vmm = vmm := rfl

theorem bare_tidy (vmm : Vmm) : (bare vmm).heap.Tidy [] := (HeapState.boot_inv _ _).tidy

theorem bare_leaks_nothing : (bare (Vmm.init Spaces.blankVmm)).heap.LeaksNothing 100 (2 ^ 4) := by
  obtain ⟨hiff, -, hnull⟩ :=
    failed_growth_iff (bare_reachable Spaces.blankVmm) (show 100 < 2 ^ 32 by decide) (2 ^ 4)
  apply hiff.mpr
  exact hnull [] 4 (bare_tidy _) (HeapState.boot_inv _ _).within (by decide)

-- A request for 16 bytes with an alignment of 2^30. The header goes to the end of the address
-- space, the block to address zero, and the break behind it.
theorem gives_null {h : Heap Ram} (hb : h.Bounds) (htidy : h.Tidy []) : ¬h.LeaksNothing 16 (2 ^ 30) := by
  intro hleaks
  obtain ⟨hlo, hhi⟩ := hb.place_range
  have hnone : h.search 16 (2 ^ 30) = .returned none := by
    rw [search, firstFit_eq_none_iff htidy.listed htidy.length_lt htidy.fits]
    exact fun b hb => absurd hb List.not_mem_nil
  have hplace := place_beyond hlo hhi (le_refl 30) (by decide)
  have hsum : uint32 (0 + 16) = 16 := by decide
  have hserved : h.ServedAtBreak 16 (2 ^ 30) := by
    simp only [ServedAtBreak, atLeastOne_two_pow, hplace, hb.limit, hsum]
    refine ⟨by decide, h, if_neg ?_⟩
    have hle := hb.break_le_mapped
    omega
  rcases allocateFromBump_cases 16 (2 ^ 30) hb.page with ⟨hnot, -⟩ | ⟨-, h', hdone, -, -, hbreak, -⟩
  · exact hnot hserved
  simp only [atLeastOne_two_pow, hplace, hsum] at hdone hbreak
  have hret : h.alloc 16 (2 ^ 30) = .returned (0, h') := by
    rw [alloc_of_search_none (by decide) hnone, atLeastOne_two_pow, hdone]
  have hkept := (hleaks h' hret).1.break_eq
  omega

theorem present_of_map {vmm : Vmm} (hs : vmm.Sound) (hroom : vmm.tablesInUse ≤ 16) :
    (vmm.call (.map 0xFFFFF000 0x00400000 true false)).2.present 0xFFFFFFF0 := by
  have hdone : (vmm.call (.map 0xFFFFF000 0x00400000 true false)).1 = true := by
    rw [← Bool.not_eq_false, Vmm.call, Vmm.mapPage_false_iff, kMaxTables]
    omega
  have hlookup := Vmm.call_lookup hs (.map 0xFFFFF000 0x00400000 true false) 0xFFFFFFF0
  rw [if_pos ⟨hdone, by decide⟩] at hlookup
  exact Vmm.present_iff.mpr ⟨_, hlookup⟩

theorem gives_null_after_map {kernelStart kernelEnd : Nat} {s : Machine}
    (hs : Reachable kernelStart kernelEnd s) (htidy : s.heap.Tidy [])
    (hroom : s.heap.paging.vmm.tablesInUse ≤ 16) :
    ∃ s, Reachable kernelStart kernelEnd s ∧ s.heap.paging.vmm.present 0xFFFFFFF0 ∧
      ¬s.heap.LeaksNothing 16 (2 ^ 30) := by
  obtain ⟨frames, hst, -⟩ := hs.stock
  have hs' := hs.page (.map 0xFFFFF000 0x00400000 true false)
  refine ⟨_, hs', present_of_map hst.sound hroom, gives_null hs'.reached.bounds ?_⟩
  exact htidy.frame rfl fun _ _ => rfl

-- Where the header goes there may be a page.
theorem null_given_out : ∃ s, Reachable 0x100000 0x180000 s ∧
    s.heap.paging.vmm.present 0xFFFFFFF0 ∧ ¬s.heap.LeaksNothing 16 (2 ^ 30) := by
  apply gives_null_after_map (bare_reachable Spaces.blankVmm) (bare_tidy _)
  rw [bare_vmm]
  exact (Spaces.counted_init Spaces.blankVmm).tables

end Machine

end Wirth.Kernel.Mm

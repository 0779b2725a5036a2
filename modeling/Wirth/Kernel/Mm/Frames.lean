import Wirth.Kernel.Mm.Pmm

namespace Wirth.Kernel.Mm

open Wirth.Lib

namespace Pmm

-- The free frames: a clear bit for each, and their number in the counter.
def free (p : Pmm) : Finset Nat := p.bitmap.clear kMaxFrames

def Counted (p : Pmm) : Prop := p.freeFrames = p.free.card

variable {startAddr : Nat} {p : Pmm} {endAddr f : Nat}

theorem mem_free : f ∈ p.free ↔ f < kMaxFrames ∧ p.bitmap.isSet f = false :=
  Bitmap.mem_clear

theorem card_free_le (p : Pmm) : p.free.card ≤ kMaxFrames := by
  have hsub : p.free ⊆ Finset.range kMaxFrames := Finset.filter_subset _ _
  simpa using Finset.card_le_card hsub

theorem frameIndexValid_eq_false : frameIndexValid f = false ↔ kMaxFrames ≤ f := by
  simp [frameIndexValid]

theorem setBit_cases (p : Pmm) (f : Nat) :
    f ∉ p.free ∧ p.setBit f = p ∨
      f ∈ p.free ∧ p.setBit f = { p with
        bitmap := p.bitmap.raise f
        freeFrames := if 0 < p.freeFrames then p.freeFrames - 1 else p.freeFrames } := by
  unfold setBit
  by_cases hvalid : frameIndexValid f = false
  · rw [if_pos hvalid]
    refine Or.inl ⟨fun hf => ?_, rfl⟩
    have hlt := (mem_free.mp hf).1
    have hge := frameIndexValid_eq_false.mp hvalid
    omega
  rw [if_neg hvalid]
  by_cases hset : p.bitmap.isSet f = true
  · rw [if_pos hset]
    refine Or.inl ⟨fun hf => ?_, rfl⟩
    cases hset.symm.trans (mem_free.mp hf).2
  · rw [if_neg hset]
    rw [frameIndexValid_eq_false] at hvalid
    exact Or.inr ⟨mem_free.mpr ⟨by omega, by simpa using hset⟩, rfl⟩

theorem clearBit_cases (p : Pmm) (f : Nat) :
    (f ∈ p.free ∨ kMaxFrames ≤ f) ∧ p.clearBit f = p ∨
      f ∉ p.free ∧ f < kMaxFrames ∧ p.clearBit f = { p with
        bitmap := p.bitmap.lower f, freeFrames := uint32 (p.freeFrames + 1) } := by
  unfold clearBit
  by_cases hvalid : frameIndexValid f = false
  · rw [if_pos hvalid]
    exact Or.inl ⟨Or.inr (frameIndexValid_eq_false.mp hvalid), rfl⟩
  rw [if_neg hvalid]
  rw [frameIndexValid_eq_false, not_le] at hvalid
  by_cases hset : p.bitmap.isSet f = true
  · rw [if_pos hset]
    refine Or.inr ⟨fun hf => ?_, hvalid, rfl⟩
    cases hset.symm.trans (mem_free.mp hf).2
  · rw [if_neg hset]
    exact Or.inl ⟨Or.inl (mem_free.mpr ⟨hvalid, by simpa using hset⟩), rfl⟩

theorem setBit_free (p : Pmm) (f : Nat) : (p.setBit f).free = p.free.erase f := by
  rcases setBit_cases p f with ⟨hf, heq⟩ | ⟨hf, heq⟩
  · rw [heq, Finset.erase_eq_of_notMem hf]
  · rw [heq]
    exact Bitmap.clear_raise _ _ _

theorem setBit_counted (h : p.Counted) (f : Nat) : (p.setBit f).Counted := by
  rw [Counted, setBit_free]
  rcases setBit_cases p f with ⟨hf, heq⟩ | ⟨hf, heq⟩
  · rw [heq, Finset.erase_eq_of_notMem hf, h]
  · have hpos : 0 < p.freeFrames := by
      rw [h]
      exact Finset.card_pos.mpr ⟨f, hf⟩
    rw [heq, Finset.card_erase_of_mem hf, ← h]
    exact if_pos hpos

theorem mem_clearBit_free {p : Pmm} {f g : Nat} :
    g ∈ (p.clearBit f).free ↔ g ∈ p.free ∨ g = f ∧ f < kMaxFrames := by
  rcases clearBit_cases p f with ⟨hf, heq⟩ | ⟨_, hlt, heq⟩
  · grind
  simp [free, Bitmap.clear_lower, or_comm, heq, hlt]

theorem clearBit_counted (h : p.Counted) (f : Nat) : (p.clearBit f).Counted := by
  rcases clearBit_cases p f with ⟨_, heq⟩ | ⟨hf, hlt, heq⟩
  · rw [heq]
    exact h
  · have hfree : (p.clearBit f).free = insert f p.free := by
      rw [heq]
      exact Bitmap.clear_lower _ hlt
    have hle := card_free_le p
    rw [Counted, hfree, Finset.card_insert_of_notMem hf, heq, ← h]
    refine uint32_eq_self ?_
    rw [h]
    simp only [kMaxFrames] at hle
    omega

-- The loops over a range.

theorem foldl_counted {step : Pmm → Nat → Pmm} (hstep : ∀ p f, Counted p → (step p f).Counted)
    (frames : List Nat) {p : Pmm} (h : p.Counted) : (frames.foldl step p).Counted := by
  induction frames generalizing p with
  | nil => exact h
  | cons f rest ih => exact ih (hstep p f h)

theorem mem_foldl_setBit {frames : List Nat} {p : Pmm} {g : Nat} :
    g ∈ (frames.foldl setBit p).free ↔ g ∈ p.free ∧ g ∉ frames := by
  induction frames generalizing p with
  | nil => simp
  | cons f rest ih =>
    rw [List.foldl_cons, ih, setBit_free, Finset.mem_erase, List.mem_cons, not_or]
    grind

theorem reserveRange_counted (h : p.Counted) (startAddr endAddr : Nat) :
    (p.reserveRange startAddr endAddr).Counted :=
  foldl_counted (fun _ f hp => setBit_counted hp f) _ h

theorem mapVisitor_counted (h : p.Counted) (entry : MemoryMapEntryView) :
    (p.mapVisitor entry).Counted := by
  have hrange : ∀ start stop, (p.unreserveRange start stop).Counted := fun _ _ =>
    foldl_counted (fun _ f hp => clearBit_counted hp f) _ h
  grind [mapVisitor]

theorem foldl_mapVisitor_counted (entries : List MemoryMapEntryView) {p : Pmm} (h : p.Counted) :
    (entries.foldl mapVisitor p).Counted := by
  induction entries generalizing p with
  | nil => exact h
  | cons entry rest ih => exact ih (mapVisitor_counted h entry)

theorem init_counted (entries : List MemoryMapEntryView) (kernelStart kernelEnd : Nat) :
    (init entries kernelStart kernelEnd).Counted := by
  have hones : (⟨fun _ => 0xFFFFFFFF, kMaxFrames, 0⟩ : Pmm).Counted := by
    refine (Finset.card_eq_zero.mpr (Finset.eq_empty_of_forall_notMem fun f hf => ?_)).symm
    cases (Bitmap.isSet_of_ones rfl).symm.trans (mem_free.mp hf).2
  grind [init, reserveRange_counted, foldl_mapVisitor_counted]

-- A range covers the frames that share an address with it, unless its end wraps when it is
-- rounded up: then it covers none.
theorem mem_rangeFrames_iff (hstart : startAddr < 2 ^ 32)
    (hend : endAddr < 2 ^ 32) :
    f ∈ rangeFrames startAddr endAddr ↔
      endAddr ≤ 0xFFFFF000 ∧ startAddr < (f + 1) * kPageSize ∧ f * kPageSize < endAddr := by
  have hdown : alignDown startAddr kPageSize = startAddr / 4096 * 4096 :=
    land_complement (k := 12) hstart (by decide)
  have hfits : uint32 (endAddr + 4095) < 2 ^ 32 := uint32_lt _
  have hup : roundUp endAddr kPageSize = uint32 (endAddr + 4095) / 4096 * 4096 :=
    land_complement (k := 12) hfits (by decide)
  have hcap : ¬kMaxFrames * kPageSize < uint32 (endAddr + 4095) / 4096 * 4096 := by
    simp only [kMaxFrames, kPageSize]
    omega
  have hmod : uint32 (endAddr + 4095) = (endAddr + 4095) % 2 ^ 32 := rfl
  rw [rangeFrames, framesBetween, hdown, hup, if_neg hcap, List.mem_range'_1]
  simp only [kPageSize]
  omega

theorem mem_rangeFrames (hend : endAddr ≤ 0xFFFFF000)
    (hlo : startAddr < (f + 1) * kPageSize) (hhi : f * kPageSize < endAddr) :
    f ∈ rangeFrames startAddr endAddr := by
  grind [kPageSize, mem_rangeFrames_iff]

-- The lowest frame from `first` on that is free, or that there is none.
def LowestFrom (p : Pmm) (first : Nat) : Option Nat → Prop
  | none => ∀ f, first ≤ f → f < kMaxFrames → p.bitmap.isSet f = true
  | some f => first ≤ f ∧ f < kMaxFrames ∧ p.bitmap.isSet f = false ∧
      ∀ g, first ≤ g → g < f → p.bitmap.isSet g = true

theorem LowestFrom.skip {first next : Nat} {found : Option Nat} (hle : first ≤ next)
    (h : p.LowestFrom next found) (hset : ∀ g, first ≤ g → g < next → p.bitmap.isSet g = true) :
    p.LowestFrom first found := by
  have hboth : ∀ g, (next ≤ g → p.bitmap.isSet g = true) → first ≤ g → p.bitmap.isSet g = true := by
    intro g hg h1
    rcases Nat.lt_or_ge g next with h2 | h2
    · exact hset g h1 h2
    · exact hg h2
  cases found with
  | none => exact fun f h1 h2 => hboth f (fun h3 => h f h3 h2) h1
  | some f =>
    obtain ⟨hnext, hlt, hclear, hbelow⟩ := h
    exact ⟨hle.trans hnext, hlt, hclear, fun g h1 h2 => hboth g (fun h3 => hbelow g h3 h2) h1⟩

theorem scanBits_spec {word left bit : Nat} (hsum : bit + left = 32)
    (hvalid : word * 32 + 32 ≤ kMaxFrames) :
    scanBits p word left bit = none ∧
        (∀ f, word * 32 + bit ≤ f → f < word * 32 + 32 → p.bitmap.isSet f = true) ∨
      ∃ f, scanBits p word left bit = some (some f) ∧ p.LowestFrom (word * 32 + bit) (some f) := by
  induction left generalizing bit with
  | zero => exact Or.inl ⟨rfl, fun f h1 h2 => by omega⟩
  | succ left ih =>
    have hv : ¬frameIndexValid (word * 32 + bit) = false := by
      rw [frameIndexValid_eq_false]
      omega
    simp only [scanBits, if_neg hv]
    by_cases hclear : p.bitmap.isSet (word * 32 + bit) = false
    · exact Or.inr ⟨_, if_pos hclear, le_refl _, by omega, hclear, fun g h1 h2 => by omega⟩
    have hset : ∀ g, word * 32 + bit ≤ g → g < word * 32 + (bit + 1) → p.bitmap.isSet g = true := by
      intro g h1 h2
      obtain rfl : g = word * 32 + bit := by omega
      simpa using hclear
    rw [if_neg hclear]
    rcases @ih (bit + 1) (by omega) with ⟨hnone, hall⟩ | ⟨f, hfound, hlowest⟩
    · grind
    · exact Or.inr ⟨f, hfound, hlowest.skip (by omega) hset⟩

theorem scanWords_spec {p : Pmm} {left word : Nat} (hsum : (word + left) * 32 = kMaxFrames) :
    p.LowestFrom (word * 32) (scanWords p left word) := by
  induction left generalizing word with
  | zero => exact fun f h1 h2 => by omega
  | succ left ih =>
    have hnext := @ih (word + 1) (by omega)
    rw [scanWords]
    by_cases hones : p.bitmap word = 0xFFFFFFFF
    · rw [if_pos hones]
      refine hnext.skip (by omega) fun g h1 h2 => Bitmap.isSet_of_ones ?_
      grind
    rw [if_neg hones]
    rcases @scanBits_spec p word 32 0 rfl (by omega) with
      ⟨hnone, hall⟩ | ⟨f, hfound, hlowest⟩
    · rw [hnone]
      exact hnext.skip (by omega) fun g h1 h2 => hall g h1 (by omega)
    · rw [hfound]
      exact hlowest

-- An allocation takes the lowest free frame; there is none only if the counter is 0.
theorem allocFrame_spec (h : p.Counted) :
    p.free = ∅ ∧ p.allocFrame = (0, p) ∨
      ∃ f ∈ p.free, (∀ g ∈ p.free, f ≤ g) ∧ p.allocFrame = (f * kPageSize, p.setBit f) := by
  by_cases hzero : p.freeFrames = 0
  · refine Or.inl ⟨?_, if_pos hzero⟩
    rw [h] at hzero
    exact Finset.card_eq_zero.mp hzero
  have hlowest : p.LowestFrom (0 * 32) (scanWords p kBitmapSize 0) := scanWords_spec (by decide)
  rw [allocFrame, if_neg hzero]
  cases hscan : scanWords p kBitmapSize 0 with
  | none =>
    rw [hscan] at hlowest
    refine absurd (Finset.card_eq_zero.mpr (Finset.eq_empty_of_forall_notMem fun f hf => ?_)) (h ▸ hzero)
    obtain ⟨hlt, hclear⟩ := mem_free.mp hf
    cases hclear.symm.trans (hlowest f (by omega) hlt)
  | some f =>
    rw [hscan] at hlowest
    obtain ⟨_, hlt, hclear, hbelow⟩ := hlowest
    refine Or.inr ⟨f, mem_free.mpr ⟨hlt, hclear⟩, ?_, ?_⟩
    · intro g hg
      by_contra hgf
      cases (hbelow g (by omega) (by omega)).symm.trans (mem_free.mp hg).2
    grind [kPageSize, uint32_eq_self, kMaxFrames]

theorem freeFrame_eq (p : Pmm) (f : Nat) : p.freeFrame (f * kPageSize) = p.clearBit f := by
  simp [kPageSize, freeFrame]

end Pmm

structure FrameState where
  pmm : Pmm
  taken : List Nat

inductive FrameCall where
  | alloc
  | free (physAddr : Nat)

namespace FrameState

def call (s : FrameState) : FrameCall → FrameState
  | .alloc =>
      let (physAddr, pmm) := s.pmm.allocFrame
      ⟨pmm, if physAddr = 0 then s.taken else physAddr :: s.taken⟩
  | .free physAddr => ⟨s.pmm.freeFrame physAddr, s.taken.erase physAddr⟩

def Permits (s : FrameState) : FrameCall → Prop
  | .alloc => True
  | .free physAddr => physAddr ∈ s.taken

inductive Reachable (kernelStart kernelEnd : Nat) : FrameState → Prop
  | init (entries : List MemoryMapEntryView) :
      Reachable kernelStart kernelEnd ⟨Pmm.init entries kernelStart kernelEnd, []⟩
  | call {s : FrameState} {c : FrameCall} (hs : Reachable kernelStart kernelEnd s)
      (hpermits : s.Permits c) : Reachable kernelStart kernelEnd (s.call c)

-- Frames that no one may have: the first megabyte and those of the kernel.
def Reserved (kernelStart kernelEnd f : Nat) : Prop :=
  f * kPageSize < kLowMemoryReserveEnd ∨
    kernelStart < (f + 1) * kPageSize ∧ f * kPageSize < kernelEnd

structure Inv (kernelStart kernelEnd : Nat) (s : FrameState) : Prop where
  counted : s.pmm.Counted
  reserved : ∀ f, Reserved kernelStart kernelEnd f → f ∉ s.pmm.free
  nodup : s.taken.Nodup
  frames : ∀ a ∈ s.taken, ∃ f, a = f * kPageSize ∧ f < kMaxFrames ∧ f ∉ s.pmm.free ∧
    ¬Reserved kernelStart kernelEnd f

theorem init_inv {kernelStart kernelEnd : Nat} (entries : List MemoryMapEntryView)
    (hend : kernelEnd ≤ 0xFFFFF000) :
    Inv kernelStart kernelEnd ⟨Pmm.init entries kernelStart kernelEnd, []⟩ := by
  refine ⟨Pmm.init_counted entries kernelStart kernelEnd, ?_, List.nodup_nil, by simp⟩
  · rintro f hf hfree
    obtain ⟨hfree, hkernel⟩ := Pmm.mem_foldl_setBit.mp hfree
    obtain ⟨_, hlow⟩ := Pmm.mem_foldl_setBit.mp hfree
    rcases hf with hf | ⟨hlo, hhi⟩
    · exact hlow (Pmm.mem_rangeFrames (by decide) (by simp only [kPageSize]; omega) hf)
    grind [Pmm.mem_rangeFrames]

variable {kernelStart kernelEnd : Nat} {s : FrameState}

theorem pos_of_not_reserved {f : Nat} (h : ¬Reserved kernelStart kernelEnd f) :
    kLowMemoryReserveEnd ≤ f * kPageSize := by
  by_contra hlt
  exact h (Or.inl (not_le.mp hlt))

theorem frame_inj {f g : Nat} (h : f * kPageSize = g * kPageSize) : f = g :=
  Nat.eq_of_mul_eq_mul_right (by decide) h

theorem Inv.alloc (h : Inv kernelStart kernelEnd s) : Inv kernelStart kernelEnd (s.call .alloc) := by
  rcases Pmm.allocFrame_spec h.counted with ⟨_, hcall⟩ | ⟨f, hf, _, hcall⟩
  · simp only [call, hcall, if_true]
    exact h
  have hfree : ¬Reserved kernelStart kernelEnd f := fun hr => h.reserved f hr hf
  have hpos : f * kPageSize ≠ 0 := by
    have hlow := pos_of_not_reserved hfree
    simp only [kLowMemoryReserveEnd] at hlow
    omega
  simp only [call, hcall, if_neg hpos]
  refine ⟨Pmm.setBit_counted h.counted f, ?_, List.nodup_cons.mpr ⟨?_, h.nodup⟩, ?_⟩
  · intro g hg hmem
    rw [Pmm.setBit_free] at hmem
    exact h.reserved g hg (Finset.mem_of_mem_erase hmem)
  · intro hmem
    obtain ⟨g, hg, _, hnot, _⟩ := h.frames _ hmem
    rw [← frame_inj hg] at hnot
    exact hnot hf
  · intro a ha
    rw [Pmm.setBit_free]
    rcases List.mem_cons.mp ha with rfl | ha
    · exact ⟨f, rfl, (Pmm.mem_free.mp hf).1, Finset.notMem_erase f _, hfree⟩
    · obtain ⟨g, rfl, hlt, hnot, hres⟩ := h.frames a ha
      simp [hlt, hnot, hres]

theorem Inv.free (h : Inv kernelStart kernelEnd s) {a : Nat} (ha : a ∈ s.taken) :
    Inv kernelStart kernelEnd (s.call (.free a)) := by
  obtain ⟨f, rfl, hlt, hnot, hres⟩ := h.frames a ha
  simp only [call, Pmm.freeFrame_eq]
  refine ⟨Pmm.clearBit_counted h.counted f, ?_, h.nodup.erase _, ?_⟩
  · intro g hg hmem
    rcases Pmm.mem_clearBit_free.mp hmem with hmem | ⟨rfl, _⟩
    · exact h.reserved g hg hmem
    · exact hres hg
  · intro b hb
    obtain ⟨hne, hb⟩ := (h.nodup.mem_erase_iff).mp hb
    obtain ⟨g, rfl, hlt', hnot', hres'⟩ := h.frames b hb
    refine ⟨g, rfl, hlt', fun hmem => ?_, hres'⟩
    rcases Pmm.mem_clearBit_free.mp hmem with hmem | ⟨rfl, _⟩
    · exact hnot' hmem
    · exact hne rfl

theorem Reachable.inv (hend : kernelEnd ≤ 0xFFFFF000) (hs : Reachable kernelStart kernelEnd s) :
    Inv kernelStart kernelEnd s := by
  induction hs with
  | init entries => exact init_inv entries hend
  | @call s c _ hpermits ih =>
    cases c with
    | alloc => exact ih.alloc
    | free physAddr => exact ih.free hpermits

-- The counter tells the number of clear bits, `alloc_frame` takes the lowest of them and gives 0
-- only if there is none, and the frames that are out are no one else's.
structure Sound (kernelStart kernelEnd : Nat) (s : FrameState) : Prop where
  counter : s.pmm.freeFrames = s.pmm.free.card
  exhausted : s.pmm.allocFrame.1 = 0 ↔ s.pmm.free.card = 0
  lowest : s.pmm.allocFrame.1 ≠ 0 →
    ∃ f ∈ s.pmm.free, s.pmm.allocFrame.1 = f * kPageSize ∧ ∀ g ∈ s.pmm.free, f ≤ g
  distinct : s.taken.Nodup
  aligned : ∀ a ∈ s.taken, kPageSize ∣ a
  high : ∀ a ∈ s.taken, 0x100000 ≤ a
  apart : ∀ a ∈ s.taken, a + kPageSize ≤ kernelStart ∨ kernelEnd ≤ a

theorem reachable_frames (hend : kernelEnd ≤ 0xFFFFF000) (hs : Reachable kernelStart kernelEnd s) :
    Sound kernelStart kernelEnd s := by
  have h := hs.inv hend
  refine ⟨h.counted, ?_, ?_, h.nodup, ?_, ?_, ?_⟩
  · rcases Pmm.allocFrame_spec h.counted with ⟨hempty, hcall⟩ | ⟨f, hf, _, hcall⟩
    · rw [hcall, hempty]
      simp
    · have hlow := pos_of_not_reserved fun hr => h.reserved f hr hf
      have hcard := Finset.card_pos.mpr ⟨f, hf⟩
      simp only [kLowMemoryReserveEnd] at hlow
      rw [hcall]
      simp only
      omega
  · intro hne
    rcases Pmm.allocFrame_spec h.counted with ⟨_, hcall⟩ | ⟨f, hf, hleast, hcall⟩
    · rw [hcall] at hne
      exact absurd rfl hne
    · exact ⟨f, hf, by rw [hcall], hleast⟩
  · intro a ha
    obtain ⟨f, rfl, _⟩ := h.frames a ha
    exact Nat.dvd_mul_left _ _
  · intro a ha
    obtain ⟨f, rfl, _, _, hres⟩ := h.frames a ha
    exact pos_of_not_reserved hres
  · intro a ha
    obtain ⟨f, rfl, _, _, hres⟩ := h.frames a ha
    simp only [Reserved, kPageSize] at hres ⊢
    omega

-- One region above the kernel: the second of two frames comes back.
theorem reachable_frames_returned :
    ∃ s, Reachable 0x100000 0x180000 s ∧ s.taken = [0x180000] ∧ Sound 0x100000 0x180000 s := by
  let entries : List MemoryMapEntryView := [⟨0x180000, 0x2000, 1⟩]
  have hs : Reachable 0x100000 0x180000 _ := Reachable.init entries
  have h1 := (hs.call (c := .alloc) trivial).call (c := .alloc) trivial
  have htaken : ((FrameState.call ⟨Pmm.init entries 0x100000 0x180000, []⟩ .alloc).call .alloc).taken =
      [0x181000, 0x180000] := by
    decide +kernel
  have h2 := h1.call (c := .free 0x181000) (by rw [Permits, htaken]; simp)
  refine ⟨_, h2, ?_, reachable_frames (by decide) h2⟩
  simp only [call] at htaken ⊢
  rw [htaken]
  decide

end FrameState

end Wirth.Kernel.Mm

import Wirth.Kernel.Mm.Frames

namespace Wirth.Kernel.Mm

open Wirth.Lib

namespace MemoryMapEntryView

def stop (entry : MemoryMapEntryView) : Nat := entry.baseAddr.toNat + entry.length.toNat

def Holds (entry : MemoryMapEntryView) (address : Nat) : Prop :=
  entry.baseAddr.toNat ≤ address ∧ address < entry.stop

def NoWrap (entry : MemoryMapEntryView) : Prop := entry.stop < 2 ^ 64

def Available (entry : MemoryMapEntryView) : Prop := entry.type = kMemoryTypeAvailable

end MemoryMapEntryView

def InFrame (f address : Nat) : Prop := f * kPageSize ≤ address ∧ address < (f + 1) * kPageSize

namespace MemoryMapEntryView

-- One byte of a frame is enough. The last frame below 4 GiB stays reserved, and so does all of a
-- region that ends in it: its end wraps to 0 when it is rounded up.
def Frees (entry : MemoryMapEntryView) (f : Nat) : Prop :=
  entry.Available ∧ f < 0xFFFFF ∧ (entry.stop ≤ 0xFFFFF000 ∨ 2 ^ 32 ≤ entry.stop) ∧
    ∃ address, InFrame f address ∧ entry.Holds address

theorem shares_byte_iff {entry : MemoryMapEntryView} {f : Nat} :
    (∃ address, InFrame f address ∧ entry.Holds address) ↔
      0 < entry.length.toNat ∧ entry.baseAddr.toNat < (f + 1) * kPageSize ∧
        f * kPageSize < entry.stop := by
  simp only [InFrame, Holds, stop, kPageSize]
  grind

end MemoryMapEntryView

namespace Pmm

open MemoryMapEntryView

theorem mem_foldl_clearBit {frames : List Nat} {p : Pmm} {g : Nat} :
    g ∈ (frames.foldl clearBit p).free ↔ g ∈ p.free ∨ g ∈ frames ∧ g < kMaxFrames := by
  induction frames generalizing p with
  | nil => simp
  | cons f rest ih =>
    rw [List.foldl_cons, ih, mem_clearBit_free, List.mem_cons]
    constructor
    · grind
    grind

variable {entries : List MemoryMapEntryView} {p : Pmm}

theorem mem_mapVisitor {entry : MemoryMapEntryView} (hwrap : entry.NoWrap) {f : Nat} :
    f ∈ (p.mapVisitor entry).free ↔ f ∈ p.free ∨ entry.Frees f := by
  rw [Frees, shares_byte_iff]
  have hstop : (entry.baseAddr + entry.length).toNat = entry.stop := by
    exact Nat.mod_eq_of_lt hwrap
  have hzero : entry.length = 0 ↔ entry.length.toNat = 0 := by
    rw [← UInt64.toNat_inj]
    rfl
  unfold mapVisitor
  by_cases hskip : entry.type ≠ kMemoryTypeAvailable ∨ entry.length = 0
  · rw [if_pos hskip]
    refine (or_iff_left ?_).symm
    rintro ⟨havail, _, _, hpos, _⟩
    rcases hskip with htype | hlength
    · exact htype havail
    · rw [hzero] at hlength
      omega
  rw [if_neg hskip]
  obtain ⟨havail, hlength⟩ := not_or.mp hskip
  rw [hzero] at hlength
  have hgt : entry.baseAddr.toNat < entry.stop := Nat.lt_add_of_pos_right (Nat.pos_of_ne_zero hlength)
  have hpast : (0x100000000 : UInt64) ≤ entry.baseAddr ↔ 2 ^ 32 ≤ entry.baseAddr.toNat :=
    UInt64.le_iff_toNat_le
  have hend : (0x100000000 : UInt64) ≤ entry.baseAddr + entry.length ↔ 2 ^ 32 ≤ entry.stop := by
    rw [UInt64.le_iff_toNat_le, hstop]
    rfl
  simp only [hpast, hend, hstop]
  by_cases hbase : 2 ^ 32 ≤ entry.baseAddr.toNat
  · rw [if_pos hbase]
    refine (or_iff_left ?_).symm
    grind [kPageSize]
  rw [if_neg hbase, uint32_eq_self (not_le.mp hbase)]
  have hrange : ∀ {stop : Nat}, stop < 2 ^ 32 → (f ∈ (if stop ≤ entry.baseAddr.toNat then p
      else p.unreserveRange entry.baseAddr.toNat stop).free ↔ f ∈ p.free ∨
        entry.baseAddr.toNat < stop ∧ stop ≤ 0xFFFFF000 ∧
          entry.baseAddr.toNat < (f + 1) * kPageSize ∧ f * kPageSize < stop) := by
    intro stop hfits
    by_cases hempty : stop ≤ entry.baseAddr.toNat
    · simp [hempty]
    · rw [if_neg hempty, unreserveRange, mem_foldl_clearBit,
        mem_rangeFrames_iff (not_le.mp hbase) hfits]
      simp only [kMaxFrames, kPageSize]
      grind
  by_cases hlong : 2 ^ 32 ≤ entry.stop
  · rw [if_pos hlong, hrange (by decide)]
    simp only [Available, not_not.mp havail, kPageSize, true_and]
    grind
  · rw [if_neg hlong, uint32_eq_self (not_le.mp hlong), hrange (not_le.mp hlong)]
    simp only [Available, not_not.mp havail, kPageSize, true_and]
    grind

theorem mem_foldl_mapVisitor
    (hwrap : ∀ entry ∈ entries, entry.NoWrap) {p : Pmm} {f : Nat} :
    f ∈ (entries.foldl mapVisitor p).free ↔ f ∈ p.free ∨ ∃ entry ∈ entries, entry.Frees f := by
  induction entries generalizing p with
  | nil => simp
  | cons entry rest ih =>
    obtain ⟨hentry, hrest⟩ := List.forall_mem_cons.mp hwrap
    rw [List.foldl_cons, ih hrest, mem_mapVisitor hentry, List.exists_mem_cons_iff, or_assoc]

def Withheld (kernelStart kernelEnd : UInt32) (f : Nat) : Prop :=
  f * kPageSize < kLowMemoryReserveEnd ∨ kernelEnd.toNat ≤ 0xFFFFF000 ∧
    kernelStart.toNat < (f + 1) * kPageSize ∧ f * kPageSize < kernelEnd.toNat

theorem mem_init_free
    (hwrap : ∀ entry ∈ entries, entry.NoWrap) {kernelStart kernelEnd : UInt32} {f : Nat} :
    f ∈ (init entries kernelStart.toNat kernelEnd.toNat).free ↔
      (∃ entry ∈ entries, entry.Frees f) ∧ ¬Withheld kernelStart kernelEnd f := by
  have hones : f ∉ (⟨fun _ => 0xFFFFFFFF, kMaxFrames, 0⟩ : Pmm).free := fun hf =>
    nomatch (Bitmap.isSet_of_ones rfl).symm.trans (mem_free.mp hf).2
  have hlow : f ∈ rangeFrames 0 kLowMemoryReserveEnd ↔ f * kPageSize < kLowMemoryReserveEnd := by
    rw [mem_rangeFrames_iff (by decide) (by decide)]
    simp only [kPageSize, kLowMemoryReserveEnd]
    omega
  rw [init, reserveRange, mem_foldl_setBit, reserveRange, mem_foldl_setBit,
    mem_foldl_mapVisitor hwrap, or_iff_right hones, hlow,
    mem_rangeFrames_iff kernelStart.toNat_lt kernelEnd.toNat_lt, Withheld, not_or, and_assoc]

def allocFrames (p : Pmm) : Nat → List Nat
  | 0 => []
  | count + 1 => p.allocFrame.1 :: p.allocFrame.2.allocFrames count

theorem mem_free_of_allocFrames (h : p.Counted) {count a : Nat}
    (ha : a ∈ p.allocFrames count) (hne : a ≠ 0) : ∃ f ∈ p.free, a = f * kPageSize := by
  induction count generalizing p with
  | zero => cases ha
  | succ count ih =>
    rw [allocFrames] at ha
    rcases allocFrame_spec h with ⟨_, hcall⟩ | ⟨g, hg, _, hcall⟩
    · grind
    · grind [setBit_counted, setBit_free]

-- Every free frame comes out, if there are enough calls: each call takes one away.
theorem allocFrames_of_mem_free (h : p.Counted) {f : Nat} (hf : f ∈ p.free) :
    ∃ count, f * kPageSize ∈ p.allocFrames count := by
  induction hcard : p.free.card generalizing p with
  | zero =>
    grind
  | succ left ih =>
    rcases allocFrame_spec h with ⟨hempty, _⟩ | ⟨g, hg, _, hcall⟩
    · rw [hempty] at hf
      cases hf
    by_cases hfg : f = g
    · subst hfg
      refine ⟨1, ?_⟩
      rw [allocFrames, hcall]
      exact List.mem_cons_self
    · have herase : f ∈ (p.setBit g).free := by
        rw [setBit_free]
        exact Finset.mem_erase.mpr ⟨hfg, hf⟩
      have hless : (p.setBit g).free.card = left := by
        rw [setBit_free, Finset.card_erase_of_mem hg, hcard]
        rfl
      obtain ⟨count, hcount⟩ := ih (setBit_counted h g) herase hless
      refine ⟨count + 1, ?_⟩
      grind [allocFrames]

-- All of the frame is available memory and none of it is of another type.
def RealMemory (entries : List MemoryMapEntryView) (f : Nat) : Prop :=
  ∀ address, InFrame f address →
    (∃ entry ∈ entries, entry.Available ∧ entry.Holds address) ∧
      ∀ entry ∈ entries, entry.Holds address → entry.Available

-- The frames that are only partly available, or also of another type, have to be withheld: regions
-- are rounded outwards, and entries of another type are ignored.
theorem frames_are_memory_iff {entries : List MemoryMapEntryView}
    (hwrap : ∀ entry ∈ entries, entry.NoWrap) (kernelStart kernelEnd : UInt32) :
    (∀ count, ∀ a ∈ (init entries kernelStart.toNat kernelEnd.toNat).allocFrames count, a ≠ 0 →
        ∃ f, a = f * kPageSize ∧ RealMemory entries f) ↔
      ∀ f, ¬RealMemory entries f → (∃ entry ∈ entries, entry.Frees f) →
        Withheld kernelStart kernelEnd f := by
  have hcounted := init_counted entries kernelStart.toNat kernelEnd.toNat
  constructor
  · intro hall f hreal hfrees
    by_contra hheld
    have hfree := (mem_init_free hwrap).mpr ⟨hfrees, hheld⟩
    obtain ⟨count, hmem⟩ := allocFrames_of_mem_free hcounted hfree
    have hpos : f * kPageSize ≠ 0 := by
      intro hzero
      apply hheld
      refine Or.inl ?_
      rw [hzero]
      decide
    obtain ⟨g, hg, hmemory⟩ := hall count _ hmem hpos
    rw [FrameState.frame_inj hg] at hreal
    exact hreal hmemory
  · intro hcond count a ha hne
    obtain ⟨f, hf, rfl⟩ := mem_free_of_allocFrames hcounted ha hne
    obtain ⟨hfrees, hheld⟩ := (mem_init_free hwrap).mp hf
    refine ⟨f, rfl, ?_⟩
    by_contra hreal
    exact hheld (hcond f hreal hfrees)

-- A region of whole pages with a region of another type behind it.
def wholePages : List MemoryMapEntryView := [⟨0x200000, 0x2000, 1⟩, ⟨0x202000, 0x1000, 2⟩]

theorem whole_pages_are_memory :
    0x201000 ∈ (init wholePages 0x100000 0x180000).allocFrames 2 ∧ RealMemory wholePages 0x201 := by
  have hwrap : ∀ entry ∈ wholePages, entry.NoWrap := by
    simp only [wholePages, List.forall_mem_cons, NoWrap, stop]
    decide
  have hmem : 0x201000 ∈ (init wholePages 0x100000 0x180000).allocFrames 2 := by decide +kernel
  suffices hpages : ∀ f, ¬RealMemory wholePages f → (∃ entry ∈ wholePages, entry.Frees f) →
      Withheld 0x100000 0x180000 f by
    obtain ⟨f, hf, hreal⟩ := (frames_are_memory_iff hwrap 0x100000 0x180000).mpr hpages 2 _ hmem
      (by decide)
    rw [FrameState.frame_inj (show 0x201 * kPageSize = f * kPageSize from hf)]
    exact ⟨hmem, hreal⟩
  intro f hnot hfrees
  refine absurd ?_ hnot
  obtain ⟨entry, hentry, havail, _, _, hshares⟩ := hfrees
  rw [shares_byte_iff] at hshares
  simp only [wholePages, List.mem_cons, List.not_mem_nil, or_false] at hentry
  rcases hentry with rfl | rfl
  · have hlo : 0x200000 < (f + 1) * 4096 := hshares.2.1
    have hhi : f * 4096 < 0x202000 := hshares.2.2
    rintro address ⟨h1, h2⟩
    simp only [kPageSize] at h1 h2
    have hin : 0x200000 ≤ address ∧ address < 0x202000 := by omega
    refine ⟨⟨_, List.mem_cons_self, rfl, hin⟩, ?_⟩
    simp only [wholePages, List.forall_mem_cons]
    refine ⟨fun _ => rfl, fun hother => ?_, by simp⟩
    have hge : 0x202000 ≤ address := hother.1
    omega
  · cases havail

-- A region that begins and ends in the middle of a page: the first frame that is handed out has
-- bytes of no region.
def partialPages : List MemoryMapEntryView := [⟨0x200800, 0x1000, 1⟩]

theorem partial_page_handed_out :
    (∀ entry ∈ partialPages, entry.NoWrap) ∧
      0x200000 ∈ (init partialPages 0x100000 0x180000).allocFrames 1 ∧
      ¬RealMemory partialPages 0x200 := by
  refine ⟨?_, by decide +kernel, fun hreal => ?_⟩
  · simp only [partialPages, List.forall_mem_cons, NoWrap, stop]
    decide
  · obtain ⟨⟨entry, hentry, _, hlo, _⟩, _⟩ := hreal 0x200000 (by simp only [InFrame]; decide)
    rw [List.mem_singleton.mp hentry] at hlo
    exact absurd hlo (by decide)

end Pmm

end Wirth.Kernel.Mm

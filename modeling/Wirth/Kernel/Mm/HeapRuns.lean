import Wirth.Kernel.Mm.Growth

namespace Wirth.Kernel.Mm

open Wirth.Lib

structure Allocation where
  payload : Nat
  size : Nat
  alignment : Nat
  deriving DecidableEq

def Allocation.header (a : Allocation) : Nat := a.payload - headroom a.alignment

def blockOf (m : Memory) (a : Allocation) : Block := ⟨m.read32 a.header, m.read32 (a.header + 4)⟩

structure HeapState (P : Type) where
  heap : Heap P
  live : List Allocation

-- What happens to the heap: calls of `alloc` and of `operator delete`, owners that write into
-- their payloads, and frames and page tables that change for other reasons.
inductive Action (P : Type) where
  | alloc (size alignment : Nat)
  | free (a : Allocation)
  | store (address : Nat) (value : UInt8)
  | repage (paging : P)

namespace HeapState

variable {P : Type}

def Permits (s : HeapState P) : Action P → Prop
  | .alloc size alignment =>
      size ≤ s.heap.heapLimit - s.heap.heapStart ∧ ∃ k, k ≤ 12 ∧ alignment = 2 ^ k
  | .free a => a ∈ s.live ∧ a.alignment = 16
  | .store address _ => ∃ a ∈ s.live, a.payload ≤ address ∧ address < a.payload + a.size
  | .repage _ => True

def act [Paging P] (s : HeapState P) : Action P → Ended (HeapState P)
  | .alloc size alignment => do
      let (ptr, heap) ← s.heap.alloc size alignment
      .returned ⟨heap, if ptr = 0 then s.live else ⟨ptr, size, alignment⟩ :: s.live⟩
  | .free a => do
      let heap ← s.heap.free a.payload
      .returned ⟨heap, s.live.erase a⟩
  | .store address value =>
      .returned ⟨{ s.heap with memory := Function.update s.heap.memory address value }, s.live⟩
  | .repage paging => .returned ⟨{ s.heap with paging := paging }, s.live⟩

-- The heap as `kernel_main` sets it up, whatever memory and page tables hold.
def boot (memory : Memory) (paging : P) : HeapState P :=
  ⟨Heap.init 0xD0000000 0xD1000000 memory paging, []⟩

inductive Reachable [Paging P] : HeapState P → Prop
  | boot (memory : Memory) (paging : P) : Reachable (boot memory paging)
  | step {s s' : HeapState P} {action : Action P} (hs : Reachable s) (hpermits : s.Permits action)
      (hact : s.act action = .returned s') : Reachable s'

-- The payloads that are out are aligned, as long as they were asked for, inside the used part
-- of the heap and inside their own blocks; all blocks are apart; the free list is sorted with
-- gaps between its blocks.
structure Sound (s : HeapState P) : Prop where
  aligned : ∀ a ∈ s.live, a.alignment ∣ a.payload
  inside : ∀ a ∈ s.live, s.heap.heapStart ≤ a.payload ∧ a.payload + a.size ≤ s.heap.heapBreak
  own : ∀ a ∈ s.live, (blockOf s.heap.memory a).start + sizeofHeapHeader ≤ a.payload ∧
    a.payload + a.size ≤ (blockOf s.heap.memory a).stop
  blocks : ∃ free, s.heap.Listed free ∧ Separated free ∧ Roomy sizeofFreeBlock free ∧
    (s.live.map (blockOf s.heap.memory) ++ free).Pairwise Block.Apart

end HeapState

structure Owned {P : Type} (h : Heap P) (a : Allocation) : Prop where
  header : HeaderAt h.memory (blockOf h.memory a) a.size
  payload_eq : a.payload = (blockOf h.memory a).start + headroom a.alignment
  aligned : a.alignment ∣ a.payload
  fits : a.payload + a.size ≤ (blockOf h.memory a).stop
  lower : h.heapStart ≤ (blockOf h.memory a).start
  upper : (blockOf h.memory a).stop ≤ h.heapBreak

structure HeapState.Inv {P : Type} (s : HeapState P) (blocks : List Block) : Prop where
  layout : s.heap.Layout
  tidy : s.heap.Tidy blocks
  within : Within s.heap.heapStart s.heap.heapBreak blocks
  owned : ∀ a ∈ s.live, Owned s.heap a
  apart : s.live.Pairwise fun a b => (blockOf s.heap.memory a).Apart (blockOf s.heap.memory b)
  out : ∀ a ∈ s.live, ∀ x, (blockOf s.heap.memory a).Holds x → ¬Covers blocks x

section Step

variable {P : Type} {h h' : Heap P} {a : Allocation} {b : Block} {s : HeapState P}
  {blocks : List Block} {size k : Nat}

theorem headroom_ge (alignment : Nat) : 16 ≤ headroom alignment := le_max_left _ _

theorem Owned.start_eq (ho : Owned h a) : (blockOf h.memory a).start = a.header := by
  have hpayload := ho.payload_eq
  rw [Allocation.header]
  omega

theorem Owned.size_ge (ho : Owned h a) : 16 ≤ (blockOf h.memory a).size := by
  have hroom := headroom_ge a.alignment
  have hfits := ho.fits
  have hpayload := ho.payload_eq
  simp only [Block.stop] at hfits
  omega

theorem Owned.size_pos (ho : Owned h a) : 0 < (blockOf h.memory a).size :=
  lt_of_lt_of_le (by decide) ho.size_ge

theorem Owned.blockOf_eq (ho : Owned h a)
    (hsame : h.memory.Same h'.memory (blockOf h.memory a).start ((blockOf h.memory a).start + 16)) :
    blockOf h'.memory a = blockOf h.memory a := by
  rw [ho.start_eq] at hsame
  rw [blockOf, blockOf, (hsame.mono (by omega) (by omega)).read32,
    (hsame.mono (by omega) (by omega)).read32]

theorem Owned.frame (ho : Owned h a)
    (hsame : h.memory.Same h'.memory (blockOf h.memory a).start ((blockOf h.memory a).start + 16))
    (hstart : h'.heapStart = h.heapStart) (hbreak : h.heapBreak ≤ h'.heapBreak) : Owned h' a := by
  have hblock := ho.blockOf_eq hsame
  refine ⟨?_, ?_, ho.aligned, ?_, ?_, ?_⟩
  · rw [hblock]
    exact ho.header.frame hsame
  · rw [hblock]
    exact ho.payload_eq
  · rw [hblock]
    exact ho.fits
  · rw [hblock, hstart]
    exact ho.lower
  · rw [hblock]
    exact ho.upper.trans hbreak

theorem Owned.same_of_holds (ho : Owned h a)
    (hsame : ∀ x, (blockOf h.memory a).Holds x → h'.memory x = h.memory x) :
    h.memory.Same h'.memory (blockOf h.memory a).start ((blockOf h.memory a).start + 16) := by
  intro i hlo hhi
  have hsize := ho.size_ge
  exact hsame i ⟨hlo, by simp only [Block.stop]; omega⟩

theorem Owned.of_allocated {area : Nat → Prop} {blocks' : List Block} {payload alignment : Nat}
    (h1 : Heap.Allocated area h h' blocks' b payload size alignment) (hlower : h'.heapStart ≤ b.start)
    (hupper : b.stop ≤ h'.heapBreak) :
    blockOf h'.memory ⟨payload, size, alignment⟩ = b ∧ Owned h' ⟨payload, size, alignment⟩ := by
  have hheader : Allocation.header ⟨payload, size, alignment⟩ = b.start := by
    rw [Allocation.header, h1.payload_eq]
    exact Nat.add_sub_cancel _ _
  have hblock : blockOf h'.memory ⟨payload, size, alignment⟩ = b := by
    rw [blockOf, hheader, h1.header.start, h1.header.block]
  refine ⟨hblock, ⟨?_, ?_, h1.aligned, ?_, ?_, ?_⟩⟩ <;> rw [hblock]
  · exact h1.header
  · exact h1.payload_eq
  · exact h1.fits
  · exact hlower
  · exact hupper

namespace HeapState

variable {live : List Allocation}

theorem Inv.transfer (hi : s.Inv blocks) {blocks' : List Block} {h' : Heap P} {live' : List Allocation}
    (hsub : live'.Sublist s.live) (hlayout : h'.Layout) (htidy : h'.Tidy blocks')
    (hwithin : Within h'.heapStart h'.heapBreak blocks') (hstart : h'.heapStart = s.heap.heapStart)
    (hbreak : s.heap.heapBreak ≤ h'.heapBreak)
    (hsame : ∀ a ∈ live', s.heap.memory.Same h'.memory (blockOf s.heap.memory a).start
      ((blockOf s.heap.memory a).start + 16))
    (hout : ∀ a ∈ live', ∀ x, (blockOf s.heap.memory a).Holds x → ¬Covers blocks' x) :
    Inv ⟨h', live'⟩ blocks' ∧ ∀ a ∈ live', blockOf h'.memory a = blockOf s.heap.memory a := by
  have hblock : ∀ a ∈ live', blockOf h'.memory a = blockOf s.heap.memory a :=
    fun a ha => (hi.owned a (hsub.subset ha)).blockOf_eq (hsame a ha)
  refine ⟨⟨hlayout, htidy, hwithin, ?_, ?_, ?_⟩, hblock⟩
  · exact fun a ha => (hi.owned a (hsub.subset ha)).frame (hsame a ha) hstart hbreak
  · refine (hi.apart.sublist hsub).imp_of_mem fun {a c} ha hc hapart => ?_
    rw [hblock a ha, hblock c hc]
    exact hapart
  grind

theorem Inv.not_area (hi : s.Inv blocks) (ha : a ∈ s.live) {x : Nat}
    (hx : (blockOf s.heap.memory a).Holds x) : ¬(Covers blocks x ∨ s.heap.heapBreak ≤ x) := by
  rintro (hcovers | hle)
  · exact hi.out a ha x hx hcovers
  · have hupper := (hi.owned a ha).upper
    have hlt := hx.2
    omega

theorem Inv.grant (hi : s.Inv blocks) {blocks' : List Block} {ptr alignment : Nat}
    (hg : Heap.Grants blocks blocks' s.heap h' b ptr size alignment) :
    Inv ⟨h', ⟨ptr, size, alignment⟩ :: s.live⟩ blocks' ∧
      ∀ a ∈ s.live, blockOf h'.memory a = blockOf s.heap.memory a := by
  obtain ⟨halloc, hcovers, hlayout, hstart, -, hbreak, hstop, -⟩ := hg
  have hwithin : Within h'.heapStart h'.heapBreak blocks' := by
    refine within_of_covers (Heap.roomy_one halloc.tidy.roomy) fun x hx => ?_
    have hx' := hi.within.covers (hcovers x hx)
    omega
  have hlower : h'.heapStart ≤ b.start := by
    have hle := hi.layout.start_le
    rw [hstart]
    rcases halloc.inside b.start ⟨le_refl _, halloc.start_lt_stop⟩ with hx | hx
    · exact (hi.within.covers hx).1
    · omega
  obtain ⟨hblock, howned⟩ := Owned.of_allocated halloc hlower hstop
  have hsame : ∀ a ∈ s.live, s.heap.memory.Same h'.memory (blockOf s.heap.memory a).start
      ((blockOf s.heap.memory a).start + 16) := fun a ha =>
    (hi.owned a ha).same_of_holds fun x hx => halloc.same x (hi.not_area ha hx)
  obtain ⟨hrest, hkept⟩ := hi.transfer (List.Sublist.refl _) hlayout halloc.tidy hwithin
    hstart hbreak hsame fun a ha x hx hx' => hi.out a ha x hx (hcovers x hx')
  refine ⟨⟨hlayout, halloc.tidy, hwithin, ?_, ?_, ?_⟩, hkept⟩
  · intro a ha
    rcases List.mem_cons.mp ha with rfl | ha
    · exact howned
    · exact hrest.owned a ha
  · refine List.pairwise_cons.mpr ⟨fun a ha => ?_, hrest.apart⟩
    refine Block.apart_of_disjoint howned.size_pos (hrest.owned a ha).size_pos fun x hx hx' => ?_
    rw [hblock] at hx
    rw [hkept a ha] at hx'
    exact hi.not_area ha hx' (halloc.inside x hx)
  · intro a ha x hx
    rcases List.mem_cons.mp ha with rfl | ha
    · rw [hblock] at hx
      exact halloc.out x hx
    · exact hrest.out a ha x hx

theorem Inv.release (hi : s.Inv blocks) (ha : a ∈ s.live) (halign : a.alignment ≤ 16) :
    ∃ h', s.heap.free a.payload = .returned h' ∧
      h'.heapStart = s.heap.heapStart ∧ h'.heapLimit = s.heap.heapLimit ∧
      h'.activeBytes = (s.heap.release a.size).activeBytes ∧
      Inv ⟨h', s.live.erase a⟩ (insertBlock (blockOf s.heap.memory a) blocks) ∧
      ∀ c ∈ s.live.erase a, blockOf h'.memory c = blockOf s.heap.memory c := by
  have ho := hi.owned a ha
  obtain ⟨b, hb⟩ : ∃ b, b = blockOf s.heap.memory a := ⟨_, rfl⟩
  have hheader := ho.header
  have hsize := ho.size_ge
  have hpayload := ho.payload_eq
  have hlower := ho.lower
  have hupper := ho.upper
  rw [← hb] at hheader hsize hpayload hlower hupper ⊢
  have hroom : headroom a.alignment = 16 := max_eq_left halign
  have hlimit := hi.layout.room
  have hbreak := hi.layout.break_le_limit
  have hpos := hi.layout.start_pos
  have hptr : uint32 (a.payload + 2 ^ 32 - sizeofHeapHeader) = b.start := by
    simp only [Block.stop] at hupper
    simp only [uint32, sizeofHeapHeader]
    omega
  obtain ⟨h1, hh1⟩ : ∃ h1 : Heap P, h1 = { s.heap.release a.size with
    memory := s.heap.memory.write32 (b.start + 12) 0 } := ⟨_, rfl⟩
  have hmemory : h1.memory = s.heap.memory.write32 (b.start + 12) 0 := by rw [hh1]
  have hwritten : ∀ x, ¬b.Holds x → h1.memory x = s.heap.memory x := by
    intro x hx
    simp only [Block.Holds, Block.stop] at hx
    rw [hmemory]
    exact if_neg (by omega)
  have htidy1 : h1.Tidy blocks := by
    refine hi.tidy.frame (by rw [hh1]; rfl) fun i hcovers => hwritten i fun hx => ?_
    exact hi.out a ha i (hb ▸ hx) hcovers
  have hcall : s.heap.free a.payload = h1.insertFreeBlock b.start b.size := by
    have h0 : h1.memory.read32 b.start = b.start := by
      rw [hmemory, Memory.read32_write32_of_apart (by omega), hheader.start]
    have h4 : h1.memory.read32 (b.start + 4) = b.size := by
      rw [hmemory, Memory.read32_write32_of_apart (by omega), hheader.block]
    rw [Heap.free, if_neg (by omega)]
    simp only [hptr, hheader.magic, hheader.payload, ne_eq, not_true_eq_false, if_false]
    rw [hh1] at h0 h4 ⊢
    simp only [Heap.release] at h0 h4 ⊢
    rw [h0, h4]
  obtain ⟨h', hret, htidy, hrelinks⟩ := Heap.insertFreeBlock_tidy htidy1 (b := b) (by omega) (by omega)
    (by omega) fun x hx => hi.out a ha x (hb ▸ hx)
  have hrest : h' = { s.heap with
      memory := h'.memory, freeList := h'.freeList
      activeBytes := (s.heap.release a.size).activeBytes } := by
    rw [hrelinks.rest, hh1]
    rfl
  have hapart : ∀ c ∈ s.live.erase a, b.Apart (blockOf s.heap.memory c) := by
    have hperm := hi.apart.perm (List.perm_cons_erase ha) fun hab => hab.symm
    intro c hc
    rw [hb]
    exact (List.pairwise_cons.mp hperm).1 c hc
  have hmem : ∀ c ∈ s.live.erase a, c ∈ s.live := fun c hc => List.mem_of_mem_erase hc
  refine ⟨h', hcall.trans hret, by rw [hrest], by rw [hrest], by rw [hrest],
    hi.transfer List.erase_sublist ?_ htidy ?_ ?_ ?_ ?_ ?_⟩
  · rw [hrest]
    exact ⟨hpos, hi.layout.start_le, hi.layout.break_le_mapped, hbreak, hlimit⟩
  · refine within_of_covers (Heap.roomy_one htidy.roomy) fun x hx => ?_
    rw [hrest]
    rcases (insertBlock_covers b blocks x).mp hx with hx | hx
    · exact ⟨hlower.trans hx.1, hx.2.trans_le hupper⟩
    · exact hi.within.covers hx
  · rw [hrest]
  · rw [hrest]
  · intro c hc
    refine (hi.owned c (hmem c hc)).same_of_holds fun x hx => ?_
    have hnot : ¬b.Holds x := (hapart c hc).symm.not_holds hx
    rw [hrelinks.same x, hwritten x hnot]
    rintro (hx' | hx')
    · exact hnot hx'
    · exact hi.out c (hmem c hc) x hx hx'
  · intro c hc x hx hx'
    rcases (insertBlock_covers b blocks x).mp hx' with hx' | hx'
    · exact (hapart c hc).symm.not_holds hx hx'
    · exact hi.out c (hmem c hc) x hx hx'

theorem Inv.store (hi : s.Inv blocks) {address : Nat} (value : UInt8) (ha : a ∈ s.live)
    (hlo : a.payload ≤ address) (hhi : address < a.payload + a.size) :
    Inv ⟨{ s.heap with memory := Function.update s.heap.memory address value }, s.live⟩ blocks ∧
      ∀ c ∈ s.live, blockOf (Function.update s.heap.memory address value) c =
        blockOf s.heap.memory c := by
  have ho := hi.owned a ha
  have hpayload := ho.payload_eq
  have hroom := headroom_ge a.alignment
  have hin : (blockOf s.heap.memory a).Holds address := ⟨by omega, lt_of_lt_of_le hhi ho.fits⟩
  have hother : ∀ x, x ≠ address → Function.update s.heap.memory address value x = s.heap.memory x :=
    fun x hx => Function.update_of_ne hx _ _
  refine hi.transfer (List.Sublist.refl _) ?_ ?_ hi.within rfl (le_refl _) ?_ hi.out
  · exact ⟨hi.layout.start_pos, hi.layout.start_le, hi.layout.break_le_mapped,
      hi.layout.break_le_limit, hi.layout.room⟩
  · refine hi.tidy.frame rfl fun i hi' => hother i ?_
    rintro rfl
    exact hi.out a ha i hin hi'
  · intro c hc i hlo' hhi'
    refine hother i ?_
    rintro rfl
    by_cases hca : c = a
    · subst hca
      omega
    · have hsize := (hi.owned c hc).size_ge
      have : Std.Symm fun a c => (blockOf s.heap.memory a).Apart (blockOf s.heap.memory c) :=
        ⟨fun _ _ hab => hab.symm⟩
      have hapart := hi.apart.forall hc ha hca
      exact hapart.not_holds ⟨hlo', by simp only [Block.stop]; omega⟩ hin

theorem boot_inv (memory : Memory) (paging : P) : (boot memory paging).Inv [] := by
  have hlayout : (boot memory paging).heap.Layout := by
    constructor <;> simp only [boot, Heap.init] <;> decide
  refine ⟨hlayout, ⟨rfl, List.Pairwise.nil, ?_, ?_⟩, ?_, ?_, List.Pairwise.nil, ?_⟩ <;>
    intro c hc <;> cases hc

theorem Inv.sound (hi : s.Inv blocks) : s.Sound := by
  refine ⟨fun a ha => (hi.owned a ha).aligned, ?_, ?_, ?_⟩
  · intro a ha
    have ho := hi.owned a ha
    have hlower := ho.lower
    have hpayload := ho.payload_eq
    exact ⟨by omega, ho.fits.trans ho.upper⟩
  · intro a ha
    have ho := hi.owned a ha
    have hroom := headroom_ge a.alignment
    have hpayload := ho.payload_eq
    exact ⟨by simp only [sizeofHeapHeader]; omega, ho.fits⟩
  · refine ⟨blocks, hi.tidy.listed, hi.tidy.separated, hi.tidy.roomy, ?_⟩
    refine List.pairwise_append.mpr ⟨List.pairwise_map.mpr hi.apart, ?_, ?_⟩
    · exact hi.tidy.separated.imp fun hlt => Or.inl hlt.le
    · intro b hb c hc
      obtain ⟨a, ha, rfl⟩ := List.mem_map.mp hb
      refine Block.apart_of_disjoint (hi.owned a ha).size_pos (Heap.roomy_one hi.tidy.roomy c hc) ?_
      exact fun x hx hx' => hi.out a ha x hx ⟨c, hc, hx'⟩

theorem Inv.unchanged (hi : s.Inv blocks) (hsame : s.heap.Unchanged h') : Inv ⟨h', s.live⟩ blocks ∧
    ∀ a ∈ s.live, blockOf h'.memory a = blockOf s.heap.memory a := by
  refine hi.transfer (List.Sublist.refl _) hsame.layout ?_ ?_ hsame.start_eq hsame.break_eq.ge ?_ hi.out
  · exact hi.tidy.frame hsame.list_eq fun i hx => hsame.same i (hi.within.covers hx).2
  · rw [hsame.start_eq, hsame.break_eq]
    exact hi.within
  · intro a ha
    refine (hi.owned a ha).same_of_holds fun x hx => hsame.same x ?_
    exact lt_of_lt_of_le hx.2 (hi.owned a ha).upper

theorem Inv.repage (hi : s.Inv blocks) (paging : P) :
    Inv ⟨{ s.heap with paging := paging }, s.live⟩ blocks := by
  have hlayout : Heap.Layout { s.heap with paging := paging } :=
    ⟨hi.layout.start_pos, hi.layout.start_le, hi.layout.break_le_mapped, hi.layout.break_le_limit,
      hi.layout.room⟩
  exact (hi.transfer (List.Sublist.refl _) hlayout (hi.tidy.frame rfl fun _ _ => rfl) hi.within rfl
    (le_refl _) (fun _ _ => Memory.Same.refl _ _ _) hi.out).1

theorem Inv.act [Paging P] (hi : s.Inv blocks) {action : Action P} (hpermits : s.Permits action) :
    ∃ s' blocks', s.act action = .returned s' ∧ s'.Inv blocks' := by
  cases action with
  | alloc size alignment =>
    obtain ⟨hsize, k, hk, rfl⟩ := hpermits
    have hroom : s.heap.heapLimit + size + 2 ^ 14 ≤ 2 ^ 32 := by
      have hlayout := hi.layout.room
      omega
    rcases Heap.alloc_spec hi.tidy hi.layout hi.within hk hroom with
      ⟨h', hret, hsame⟩ | ⟨h', blocks', b, ptr, hret, hpos, hgrants⟩
    · refine ⟨⟨h', s.live⟩, blocks, ?_, (hi.unchanged hsame).1⟩
      simp only [HeapState.act, hret, Ended.returned_bind, if_true]
    · refine ⟨⟨h', ⟨ptr, size, 2 ^ k⟩ :: s.live⟩, blocks', ?_, (hi.grant hgrants).1⟩
      simp only [HeapState.act, hret, Ended.returned_bind, hpos.ne', if_false]
  | free a =>
    obtain ⟨ha, halign⟩ := hpermits
    obtain ⟨h', hret, -, -, -, hinv, -⟩ := hi.release ha halign.le
    grind [HeapState.act, Ended.returned_bind]
  | store address value =>
    obtain ⟨a, ha, hlo, hhi⟩ := hpermits
    exact ⟨_, blocks, rfl, (hi.store value ha hlo hhi).1⟩
  | repage paging => exact ⟨_, blocks, rfl, hi.repage paging⟩

theorem Reachable.inv [Paging P] (hs : Reachable s) : ∃ blocks, s.Inv blocks := by
  induction hs with
  | boot memory paging => exact ⟨[], boot_inv memory paging⟩
  | step _ hpermits hact ih =>
    obtain ⟨blocks, hi⟩ := ih
    obtain ⟨s', blocks', hret, hi'⟩ := hi.act hpermits
    grind

-- Along every run the heap stays sound, and every permitted call returns.
theorem reachable_sound [Paging P] {s : HeapState P} (hs : Reachable s) :
    s.Sound ∧ ∀ action, s.Permits action → ∃ s', s.act action = .returned s' := by
  obtain ⟨blocks, hi⟩ := hs.inv
  refine ⟨hi.sound, fun action hpermits => ?_⟩
  obtain ⟨s', _, hret, _⟩ := hi.act hpermits
  exact ⟨s', hret⟩

end HeapState

end Step

instance endlessFrames : Paging Unit where
  allocFrame _ := (kPageSize, ())
  freeFrame _ _ := ()
  mapPage _ _ _ _ _ := (true, ())
  contents _ _ := 0

-- Two allocations, of which the first comes back.
theorem HeapState.reachable_sound_deleted :
    ∃ s : HeapState Unit, Reachable s ∧ s.live = [⟨0xD0002000, 8, 4096⟩] ∧ s.Sound := by
  have hs0 : Reachable (boot (fun _ => 0) ()) := Reachable.boot _ _
  have hp1 : (boot (fun _ => 0) ()).Permits (.alloc 100 16) := ⟨by decide, 4, by decide, rfl⟩
  obtain ⟨s1, hact1⟩ := (reachable_sound hs0).2 _ hp1
  have hs1 := Reachable.step hs0 hp1 hact1
  have hbounds : s1.heap.heapLimit - s1.heap.heapStart = 0x1000000 := by
    have hrun : ((boot (fun _ => 0) ()).act (.alloc 100 16) >>= fun s =>
        Ended.returned (s.heap.heapLimit - s.heap.heapStart)) = .returned 0x1000000 := by
      decide +kernel
    rw [hact1] at hrun
    exact Ended.returned.inj hrun
  have hp2 : s1.Permits (.alloc 8 4096) := ⟨by rw [hbounds]; decide, 12, by decide, rfl⟩
  obtain ⟨s2, hact2⟩ := (reachable_sound hs1).2 _ hp2
  have hs2 := Reachable.step hs1 hp2 hact2
  have hlive2 : s2.live = [⟨0xD0002000, 8, 4096⟩, ⟨0xD0000020, 100, 16⟩] := by
    have hrun : ((boot (fun _ => 0) ()).act (.alloc 100 16) >>= fun s =>
        s.act (.alloc 8 4096) >>= fun s => Ended.returned s.live) =
          .returned [⟨0xD0002000, 8, 4096⟩, ⟨0xD0000020, 100, 16⟩] := by
      decide +kernel
    rw [hact1, Ended.returned_bind, hact2] at hrun
    exact Ended.returned.inj hrun
  have hp3 : s2.Permits (.free ⟨0xD0000020, 100, 16⟩) := ⟨by rw [hlive2]; simp, rfl⟩
  obtain ⟨s3, hact3⟩ := (reachable_sound hs2).2 _ hp3
  have hs3 := Reachable.step hs2 hp3 hact3
  refine ⟨s3, hs3, ?_, (reachable_sound hs3).1⟩
  simp only [HeapState.act, Ended.bind_eq_returned, Ended.returned.injEq] at hact3
  obtain ⟨heap, _, rfl⟩ := hact3
  simp only [hlive2]
  decide

end Wirth.Kernel.Mm

import Mathlib.Algebra.Order.BigOperators.Group.List
import Mathlib.Algebra.Order.Group.Nat
import Wirth.Kernel.Mm.HeapRuns

namespace Wirth.Kernel.Mm

open Wirth.Lib

-- The heap with, for every pointer in use, the block that was made for it.
structure Books (P : Type) where
  heap : Heap P
  live : List (Allocation × Block)

namespace Books

variable {P : Type}

def state (s : Books P) : HeapState P := ⟨s.heap, s.live.map Prod.fst⟩

def sizes (s : Books P) : List Nat := s.state.live.map Allocation.size

def Permits (s : Books P) : Action P → Prop
  | .alloc _ alignment => ∃ k, k ≤ 12 ∧ alignment = 2 ^ k
  | .free a => a ∈ s.state.live
  | .store address _ => ∃ a ∈ s.state.live, a.payload ≤ address ∧ address < a.payload + a.size
  | .repage _ => True

-- Sizes that cannot wrap around the end of the address space, and pointers whose header `free`
-- finds.
def Releasable : Action P → Prop
  | .alloc size _ => size ≤ 0x2EFFC000
  | .free a => a.alignment ≤ 16
  | _ => True

def act [Paging P] (s : Books P) : Action P → Ended (Books P)
  | .alloc size alignment => do
      let (ptr, heap) ← s.heap.alloc size alignment
      let a : Allocation := ⟨ptr, size, alignment⟩
      .returned ⟨heap, if ptr = 0 then s.live else (a, blockOf heap.memory a) :: s.live⟩
  | .free a => do
      let heap ← s.heap.free a.payload
      .returned ⟨heap, s.live.eraseP fun e => e.1 == a⟩
  | .store address value =>
      .returned ⟨{ s.heap with memory := Function.update s.heap.memory address value }, s.live⟩
  | .repage paging => .returned ⟨{ s.heap with paging := paging }, s.live⟩

def boot (memory : Memory) (paging : P) : Books P :=
  ⟨Heap.init 0xD0000000 0xD1000000 memory paging, []⟩

inductive Reachable [Paging P] : Books P → Prop
  | boot (memory : Memory) (paging : P) : Reachable (boot memory paging)
  | step {s s' : Books P} {action : Action P} (hs : Reachable s) (hpermits : s.Permits action)
      (hreleasable : Releasable action) (hact : s.act action = .returned s') : Reachable s'

def Returns (s : Books P) (a : Allocation) (b : Block) : Prop :=
  ∃ h', s.heap.free a.payload = .returned h' ∧ ∃ free free', s.heap.Listed free ∧ h'.Listed free' ∧
    ∀ x, Covers free' x ↔ b.Holds x ∨ Covers free x

-- What the counter and the blocks say about the pointers in use.
structure Balanced (s : Books P) (blocks : List Block) : Prop where
  inv : s.state.Inv blocks
  start : s.heap.heapStart = 0xD0000000
  limit : s.heap.heapLimit = 0xD1000000
  created : ∀ e ∈ s.live, e.2 = blockOf s.heap.memory e.1
  used : s.heap.usedBytes = s.sizes.sum

end Books

section Accounts

variable {P : Type} {h' : Heap P} {s : HeapState P} {blocks : List Block}

theorem HeapState.Inv.sizes_le (hi : s.Inv blocks) :
    (s.live.map Allocation.size).sum ≤ s.heap.heapBreak - s.heap.heapStart := by
  have hwithin : Within s.heap.heapStart s.heap.heapBreak (s.live.map (blockOf s.heap.memory)) := by
    intro b hb
    obtain ⟨a, ha, rfl⟩ := List.mem_map.mp hb
    exact ⟨(hi.owned a ha).lower, (hi.owned a ha).upper⟩
  have hblocks := hwithin.sum_size_le (List.pairwise_map.mpr hi.apart)
  rw [List.map_map] at hblocks
  refine le_trans (List.sum_le_sum ?_) hblocks
  intro a ha
  have hpayload := (hi.owned a ha).payload_eq
  have hfits := (hi.owned a ha).fits
  simp only [Block.stop] at hfits
  simp only [Function.comp_apply]
  omega

end Accounts

namespace Books

variable {P : Type} {s : Books P} {blocks : List Block}

theorem boot_balanced (memory : Memory) (paging : P) : (boot memory paging).Balanced [] := by
  refine ⟨HeapState.boot_inv memory paging, ?_, ?_, nofun, rfl⟩
  · simp only [boot, Heap.init]
    decide
  · simp only [boot, Heap.init]
    decide

theorem Balanced.room (hb : s.Balanced blocks) {size : Nat} (hsize : size ≤ 0x2EFFC000) :
    s.heap.heapLimit + size + 2 ^ 14 ≤ 2 ^ 32 := by
  rw [hb.limit]
  omega

section Alloc

variable {h' : Heap P} {blocks' : List Block} {b : Block} {ptr size alignment : Nat}

theorem Balanced.unchanged (hb : s.Balanced blocks) (hsame : s.heap.Unchanged h') :
    Balanced ⟨h', s.live⟩ blocks := by
  obtain ⟨hinv, hkept⟩ := hb.inv.unchanged hsame
  refine ⟨hinv, hsame.start_eq.trans hb.start, hsame.limit_eq.trans hb.limit, ?_, hsame.active_eq.trans hb.used⟩
  intro e he
  rw [hb.created e he]
  exact (hkept e.1 (List.mem_map_of_mem he)).symm

theorem Balanced.grant (hb : s.Balanced blocks)
    (hg : Heap.Grants blocks blocks' s.heap h' b ptr size alignment) :
    Balanced ⟨h', (⟨ptr, size, alignment⟩, blockOf h'.memory ⟨ptr, size, alignment⟩) :: s.live⟩
      blocks' := by
  obtain ⟨hinv, hkept⟩ := hb.inv.grant hg
  have hsizes : (size :: s.sizes).sum < 2 ^ 32 := by
    have hle := hinv.sizes_le
    have hbreak := hinv.layout.break_le_limit
    have hroom := hinv.layout.room
    have hle : (size :: s.sizes).sum ≤ h'.heapBreak - h'.heapStart := hle
    simp only at hbreak hroom
    omega
  refine ⟨hinv, hg.start_eq.trans hb.start, hg.limit_eq.trans hb.limit, ?_, ?_⟩
  · intro e he
    rcases List.mem_cons.mp he with rfl | he
    · rfl
    · rw [hb.created e he]
      exact (hkept e.1 (List.mem_map_of_mem he)).symm
  · change h'.activeBytes = (size :: s.sizes).sum
    have hused : s.heap.activeBytes = s.sizes.sum := hb.used
    rw [List.sum_cons] at hsizes ⊢
    rw [hg.active_eq, hused, uint32_eq_self (by omega), Nat.add_comm]

end Alloc

theorem map_fst_eraseP (live : List (Allocation × Block)) (a : Allocation) :
    (live.eraseP fun e => e.1 == a).map Prod.fst = (live.map Prod.fst).erase a := by
  rw [List.erase_eq_eraseP', List.eraseP_map]
  rfl

theorem Balanced.release (hb : s.Balanced blocks) {a : Allocation} (ha : a ∈ s.state.live)
    (halign : a.alignment ≤ 16) :
    ∃ h', s.heap.free a.payload = .returned h' ∧
      Balanced ⟨h', s.live.eraseP fun e => e.1 == a⟩
        (insertBlock (blockOf s.heap.memory a) blocks) := by
  obtain ⟨h', hret, hstart, hlimit, hactive, hinv, hkept⟩ := hb.inv.release ha halign
  have hsum : s.sizes.sum = a.size + ((s.state.live.erase a).map Allocation.size).sum := by
    exact ((List.perm_cons_erase ha).map Allocation.size).sum_eq
  refine ⟨h', hret, ?_, hstart.trans hb.start, hlimit.trans hb.limit, ?_, ?_⟩
  · rw [state, map_fst_eraseP]
    exact hinv
  · intro e he
    rw [hb.created e (List.mem_of_mem_eraseP he)]
    apply (hkept e.1 _).symm
    rw [state, ← map_fst_eraseP]
    exact List.mem_map_of_mem he
  · have hused : s.state.heap.activeBytes = s.sizes.sum := hb.used
    have herased : sizes ⟨h', s.live.eraseP fun e => e.1 == a⟩ =
        (s.state.live.erase a).map Allocation.size := by
      rw [sizes, state, map_fst_eraseP]
      rfl
    change h'.activeBytes = _
    rw [hactive, herased, Heap.release, hused, hsum, if_pos (Nat.le_add_right _ _),
      Nat.add_sub_cancel_left]

theorem Balanced.act [Paging P] (hb : s.Balanced blocks) {action : Action P}
    (hpermits : s.Permits action) (hreleasable : Releasable action) :
    ∃ s' blocks', s.act action = .returned s' ∧ s'.Balanced blocks' := by
  cases action with
  | alloc size alignment =>
    obtain ⟨k, hk, rfl⟩ := hpermits
    rcases Heap.alloc_spec hb.inv.tidy hb.inv.layout hb.inv.within hk (hb.room hreleasable) with
      ⟨h', hret, hsame⟩ | ⟨h', blocks', b, ptr, hret, hpos, hgrants⟩
    · refine ⟨⟨h', s.live⟩, blocks, ?_, hb.unchanged hsame⟩
      have hret : s.heap.alloc size (2 ^ k) = _ := hret
      simp only [Books.act, hret, Ended.returned_bind, if_true]
    · refine ⟨_, blocks', ?_, hb.grant hgrants⟩
      have hret : s.heap.alloc size (2 ^ k) = _ := hret
      simp only [Books.act, hret, Ended.returned_bind, hpos.ne', if_false]
  | free a =>
    obtain ⟨h', hret, hb'⟩ := hb.release hpermits hreleasable
    grind [Books.act, Ended.returned_bind]
  | store address value =>
    obtain ⟨a, ha, hlo, hhi⟩ := hpermits
    obtain ⟨hinv, hkept⟩ := hb.inv.store value ha hlo hhi
    refine ⟨_, blocks, rfl, hinv, hb.start, hb.limit, ?_, hb.used⟩
    intro e he
    rw [hb.created e he]
    exact (hkept e.1 (List.mem_map_of_mem he)).symm
  | repage paging =>
    exact ⟨_, blocks, rfl, hb.inv.repage paging, hb.start, hb.limit, hb.created, hb.used⟩

theorem Reachable.balanced [Paging P] (hs : Reachable s) : ∃ blocks, s.Balanced blocks := by
  induction hs with
  | boot memory paging => exact ⟨[], boot_balanced memory paging⟩
  | step _ hpermits hreleasable hact ih =>
    obtain ⟨blocks, hb⟩ := ih
    obtain ⟨s', blocks', hret, hb'⟩ := hb.act hpermits hreleasable
    grind

-- As long as every pointer that comes back was given out with an alignment of at most 16, the
-- counter is right and each block comes back as a whole.
theorem heap_accounts [Paging P] {s : Books P} (hs : Reachable s) :
    s.heap.usedBytes = s.sizes.sum ∧
      (∀ a b, (a, b) ∈ s.live → a.alignment ≤ 16 → s.Returns a b) ∧
      ∀ action, s.Permits action → Releasable action → ∃ s', s.act action = .returned s' := by
  obtain ⟨blocks, hb⟩ := hs.balanced
  refine ⟨hb.used, ?_, ?_⟩
  · intro a b hab halign
    obtain ⟨h', hret, hb'⟩ := hb.release (List.mem_map_of_mem hab) halign
    refine ⟨h', hret, blocks, _, hb.inv.tidy.listed, hb'.inv.tidy.listed, ?_⟩
    have hcreated : b = blockOf s.heap.memory a := hb.created _ hab
    rw [hcreated]
    exact insertBlock_covers _ _
  · intro action hpermits hreleasable
    obtain ⟨s', _, hret, _⟩ := hb.act hpermits hreleasable
    exact ⟨s', hret⟩

theorem heap_accounts_one : ∃ s : Books Unit, Reachable s ∧ s.sizes = [100] ∧
    s.heap.usedBytes = s.sizes.sum := by
  have hboot : Reachable (boot (fun _ => 0) ()) := .boot _ _
  have hpermits : (boot (fun _ => 0) ()).Permits (.alloc 100 16) := ⟨4, by decide, rfl⟩
  have hreleasable : Releasable (.alloc 100 16 : Action Unit) := (by decide : 100 ≤ 0x2EFFC000)
  obtain ⟨s, hact⟩ := (heap_accounts hboot).2.2 _ hpermits hreleasable
  have hs := Reachable.step hboot hpermits hreleasable hact
  refine ⟨s, hs, ?_, (heap_accounts hs).1⟩
  have hrun : ((boot (fun _ => 0) ()).act (.alloc 100 16) >>= fun s => Ended.returned s.sizes) =
      .returned [100] := by
    decide +kernel
  rw [hact] at hrun
  exact Ended.returned.inj hrun

-- A page that was asked for with the alignment of a page. Its header stands a page in front of it,
-- and `free` does not find the magic number right before it.
theorem aligned_block_leaks :
    ((boot (fun _ => 0) ()).act (.alloc 8 4096) >>= fun s => Ended.returned s.state.live) =
      .returned [⟨0xD0002000, 8, 4096⟩] ∧
    ((boot (fun _ => 0) ()).act (.alloc 8 4096) >>= fun s =>
      s.act (.free ⟨0xD0002000, 8, 4096⟩) >>= fun s =>
        Ended.returned (s.sizes.sum, s.heap.usedBytes, s.heap.freeList)) = .returned (0, 8, 0) := by
  constructor <;> decide +kernel

end Books

end Wirth.Kernel.Mm

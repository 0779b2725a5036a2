import Wirth.Kernel.Mm.HeapRuns

namespace Wirth.Kernel.Mm

open Wirth.Lib

namespace Heap

variable {P : Type} {h h' : Heap P} {size alignment k ptr : Nat}

-- What a failed request must leave alone: the free list, the break, the counter and the bytes
-- below the break, where all blocks are.
structure Kept (h h' : Heap P) : Prop where
  list_eq : h'.freeList = h.freeList
  break_eq : h'.heapBreak = h.heapBreak
  used_eq : h'.usedBytes = h.usedBytes
  same : ∀ i, i < h.heapBreak → h'.memory i = h.memory i

-- The list functions, on whatever the list may hold: the bounds of the heap are not theirs.

section Lists

theorem setNext_rest (block next : Nat) : Relinks (fun _ => True) h (h.setNext block next) :=
  ⟨rfl, fun _ hi => absurd trivial hi⟩

theorem setSize_rest (block n : Nat) : Relinks (fun _ => True) h (h.setSize block n) :=
  ⟨rfl, fun _ hi => absurd trivial hi⟩

theorem setHead_rest (node : Nat) : Relinks (fun _ => True) h { h with freeList := node } :=
  ⟨rfl, fun _ hi => absurd trivial hi⟩

theorem link_rest (prev node curr : Nat) : Relinks (fun _ => True) h (h.link prev node curr) := by
  unfold link
  split_ifs
  · exact (setNext_rest _ _).trans (setHead_rest _)
  · exact (setNext_rest _ _).trans (setNext_rest _ _)

theorem absorb_rest (block next : Nat) : Relinks (fun _ => True) h (h.absorb block next) :=
  (setSize_rest _ _).trans (setNext_rest _ _)

theorem mergePrev_rest (prev node : Nat) : Relinks (fun _ => True) h (h.mergePrev prev node).2 := by
  grind [mergePrev, absorb_rest, Relinks.refl]

theorem mergeNext_rest (node : Nat) : Relinks (fun _ => True) h (h.mergeNext node) := by
  grind [mergeNext, absorb_rest, Relinks.refl]

theorem insertFreeBlock_rest {start : Nat} (hret : h.insertFreeBlock start size = .returned h') :
    Relinks (fun _ => True) h h' := by
  unfold insertFreeBlock at hret
  split_ifs at hret
  · cases hret
    exact Relinks.refl _ _
  · obtain ⟨⟨prev, curr⟩, -, hret⟩ := Ended.bind_eq_returned.mp hret
    rw [← Ended.returned.inj hret]
    have hwritten := (setSize_rest start size).trans (setNext_rest (h := h.setSize start size) start 0)
    exact ((hwritten.trans (link_rest _ _ _)).trans (mergePrev_rest _ _)).trans (mergeNext_rest _)

theorem giveBack_rest {start : Nat} (hret : h.giveBack start size = .returned h') :
    Relinks (fun _ => True) h h' := by
  grind [giveBack, insertFreeBlock_rest, Relinks.refl]

theorem unlink_rest (prev curr : Nat) : Relinks (fun _ => True) h (h.unlink prev curr) := by
  grind [unlink, setHead_rest, setNext_rest]

theorem takeBlock_rest {curr : Nat} {f : Fit} (hret : h.takeBlock curr f size = .returned (ptr, h')) :
    ptr = f.payload ∧ h' = { h with
      memory := h'.memory, freeList := h'.freeList, activeBytes := uint32 (h.activeBytes + size) } := by
  obtain ⟨h1, hret1, hret⟩ := Ended.bind_eq_returned.mp hret
  obtain ⟨h2, hret2, hret⟩ := Ended.bind_eq_returned.mp hret
  cases hret
  have hrest := ((unlink_rest 0 curr).trans (giveBack_rest hret1)).trans (giveBack_rest hret2)
  refine ⟨rfl, ?_⟩
  rw [hrest.rest]
  rfl

theorem free_rest (hret : h.free ptr = .returned h') : h' = { h with
    memory := h'.memory, freeList := h'.freeList, activeBytes := h'.activeBytes } := by
  unfold free at hret
  split_ifs at hret with hnull
  · cases hret
    rfl
  simp only at hret
  split_ifs at hret with hmagic
  · cases hret
    rfl
  · rw [(insertFreeBlock_rest hret).rest]
    rfl

end Lists

def search (h : Heap P) (size alignment : Nat) : Ended (Option (Nat × Fit)) :=
  firstFit h.memory size (atLeastOne alignment) rounds h.freeList

variable [Paging P]

theorem alloc_cases (hsize : size ≠ 0) (hret : h.alloc size alignment = .returned (ptr, h')) :
    h.search size alignment = .returned none ∧
        h.allocateFromBump size (atLeastOne alignment) = .returned (ptr, h') ∨
      ∃ curr f h1, h.search size alignment = .returned (some (curr, f)) ∧
        h1 = { h with
          memory := h1.memory, freeList := h1.freeList
          activeBytes := uint32 (h.activeBytes + size) } ∧
        (f.payload ≠ 0 ∧ ptr = f.payload ∧ h' = h1 ∨
          f.payload = 0 ∧ h1.allocateFromBump size (atLeastOne alignment) = .returned (ptr, h')) := by
  simp only [alloc, if_neg hsize] at hret
  obtain ⟨⟨first, h1⟩, hlist, hret⟩ := Ended.bind_eq_returned.mp hret
  obtain ⟨found, hfound, hlist⟩ := Ended.bind_eq_returned.mp hlist
  cases found with
  | none =>
    cases hlist
    exact Or.inl ⟨hfound, hret⟩
  | some block =>
    obtain ⟨curr, f⟩ := block
    obtain ⟨rfl, hrest⟩ := takeBlock_rest hlist
    refine Or.inr ⟨curr, f, h1, hfound, hrest, ?_⟩
    by_cases hnull : f.payload = 0
    · simp only [hnull, ne_eq, not_true_eq_false, if_false] at hret
      exact Or.inr ⟨hnull, hret⟩
    grind

end Heap

-- Where blocks are placed in the heap of the kernel, for every alignment.

section Placing

variable {x k : Nat}

theorem place_below (hlo : 0xD0000000 ≤ x) (hhi : x ≤ 0xD1000000) (hk : k < 30) :
    x + 16 ≤ (place x (2 ^ k)).header ∧ x + 16 ≤ (place x (2 ^ k)).payload ∧
      (place x (2 ^ k)).payload < 2 ^ 32 := by
  by_cases hk' : k = 29
  · -- the payload would come after the end of the address space and moves in front of the header
    subst hk'
    have hfirst : uint32 (x + sizeofHeapHeader) = x + 16 := uint32_eq_self (by
      simp only [sizeofHeapHeader]
      omega)
    obtain ⟨⟨c, hc⟩, hle, hlt⟩ := roundUp_spec (x + 16) (show 29 ≤ 32 by decide) (by omega)
    have hheader : roundUp (x + 16) (2 ^ 29) = 0xE0000000 := by omega
    have hplace : place x (2 ^ 29) = ⟨0xDFFFFFF0, 0xE0000000⟩ := by
      have hstart : ¬0xE0000000 < x := by omega
      simp only [place, alignUp_two_pow, hfirst, hheader, if_neg hstart]
      rfl
    rw [hplace]
    simp only
    omega
  · have hpow : 2 ^ k ≤ 2 ^ 28 := Nat.pow_le_pow_right (by decide) (by omega)
    grind [place_of_room, headroom, sizeofHeapHeader]

theorem place_beyond (hlo : 0xD0000000 ≤ x) (hhi : x ≤ 0xD1000000) (hk : 30 ≤ k) (hk' : k < 32) :
    place x (2 ^ k) = ⟨0xFFFFFFF0, 0⟩ := by
  have hpow : 2 ^ 30 ≤ 2 ^ k := Nat.pow_le_pow_right (by decide) hk
  have hfirst : uint32 (x + sizeofHeapHeader) = x + 16 := uint32_eq_self (by
    simp only [sizeofHeapHeader]
    omega)
  have hwrapped : roundUp (x + 16) (2 ^ k) = 0 := roundUp_wrapped (by omega) (by omega) (by omega)
  have hstart : 0 < x := by omega
  simp only [place, alignUp_two_pow, hfirst, hwrapped, if_pos hstart]
  rfl

end Placing

namespace Heap

variable {P : Type} {h h' : Heap P} {size alignment k ptr : Nat}

structure Bounds (h : Heap P) : Prop where
  start : h.heapStart = 0xD0000000
  limit : h.heapLimit = 0xD1000000
  start_le_break : h.heapStart ≤ h.heapBreak
  break_le_mapped : h.heapBreak ≤ h.heapMappedEnd
  break_le_limit : h.heapBreak ≤ h.heapLimit

theorem Bounds.page (hb : h.Bounds) : h.heapLimit + kPageSize < 2 ^ 32 := by
  rw [hb.limit]
  decide

theorem Bounds.place_range (hb : h.Bounds) :
    0xD0000000 ≤ h.heapBreak ∧ h.heapBreak ≤ 0xD1000000 := by
  have hstart := hb.start_le_break
  have hlimit := hb.break_le_limit
  rw [hb.start] at hstart
  rw [hb.limit] at hlimit
  exact ⟨hstart, hlimit⟩

theorem Bounds.sides (hb : h.Bounds) {memory : Memory} {freeList active : Nat} {paging : P} :
    Bounds { h with memory := memory, freeList := freeList, activeBytes := active, paging := paging } :=
  ⟨hb.start, hb.limit, hb.start_le_break, hb.break_le_mapped, hb.break_le_limit⟩

theorem init_bounds (memory : Memory) (paging : P) :
    (init 0xD0000000 0xD1000000 memory paging).Bounds := by
  constructor <;> simp only [init] <;> decide

variable [Paging P]

-- Any requests, any pointers given back and anything written to memory, as long as the break does
-- not leave the heap.
inductive Reached : Heap P → Prop
  | boot (memory : Memory) (paging : P) : Reached (init 0xD0000000 0xD1000000 memory paging)
  | alloc {h h' : Heap P} {size alignment ptr : Nat} (hs : Reached h)
      (hret : h.alloc size alignment = .returned (ptr, h')) (hin : h'.heapStart ≤ h'.heapBreak) :
      Reached h'
  | free {h h' : Heap P} {ptr : Nat} (hs : Reached h) (hret : h.free ptr = .returned h') : Reached h'
  | store {h : Heap P} (address : Nat) (value : UInt8) (hs : Reached h) :
      Reached { h with memory := Function.update h.memory address value }
  | repage {h : Heap P} (paging : P) (hs : Reached h) : Reached { h with paging := paging }

theorem Bounds.bump (hb : h.Bounds)
    (hret : h.allocateFromBump size (atLeastOne alignment) = .returned (ptr, h'))
    (hin : h'.heapStart ≤ h'.heapBreak) : h'.Bounds := by
  rcases allocateFromBump_cases size alignment hb.page with
    ⟨-, memory, mappedEnd, paging, hfail, hgrown, -⟩ |
    ⟨hserved, h1, hdone, hstart, hlimit, hbreak, hmapped, -⟩
  · cases hret.symm.trans hfail
    exact ⟨hb.start, hb.limit, hb.start_le_break, hb.break_le_mapped.trans hgrown, hb.break_le_limit⟩
  · cases hret.symm.trans hdone
    have hcheck := hserved.1
    rw [not_or, not_lt, not_lt, ← hbreak, ← hlimit] at hcheck
    exact ⟨hstart.trans hb.start, hlimit.trans hb.limit, hin, hmapped, hcheck.2⟩

theorem Bounds.alloc (hb : h.Bounds) (hret : h.alloc size alignment = .returned (ptr, h'))
    (hin : h'.heapStart ≤ h'.heapBreak) : h'.Bounds := by
  by_cases hsize : size = 0
  · rw [Heap.alloc, if_pos hsize] at hret
    cases hret
    exact hb
  rcases alloc_cases hsize hret with
    ⟨-, hbump⟩ | ⟨curr, f, h1, -, hrest, ⟨-, -, rfl⟩ | ⟨-, hbump⟩⟩
  · exact hb.bump hbump hin
  · rw [hrest]
    exact hb.sides
  · rw [hrest] at hbump
    exact hb.sides.bump hbump hin

theorem Reached.bounds (hs : h.Reached) : h.Bounds := by
  induction hs with
  | boot memory paging => exact init_bounds memory paging
  | alloc _ hret hin ih => exact ih.alloc hret hin
  | free _ hret ih =>
    rw [free_rest hret]
    exact ih.sides
  | store address value _ ih => exact ih.sides
  | repage paging _ ih => exact ih.sides

def Refused (h : Heap P) (size alignment : Nat) : Prop :=
  ∃ h', h.alloc size alignment = .returned (0, h') ∧ h.Kept h'

theorem alloc_of_search_none (hsize : size ≠ 0) (hnone : h.search size alignment = .returned none) :
    h.alloc size alignment = h.allocateFromBump size (atLeastOne alignment) := by
  simp only [search, atLeastOne] at hnone
  simp only [Heap.alloc, if_neg hsize, allocateFromFreeList, hnone, Ended.returned_bind, ne_eq,
    not_true_eq_false, if_false, atLeastOne]

theorem uint32_add_ne {n m : Nat} (hm : 0 < m) (hm' : m < 2 ^ 32) :
    uint32 (n + m) ≠ n := by
  rw [uint32]
  omega

-- A request leaves everything as it was exactly when neither the list nor the break serves it.
theorem refused_iff (hb : h.Bounds) (alignment : Nat) (hpos : 0 < size) (hsize : size < 2 ^ 32) :
    h.Refused size alignment ↔
      h.search size alignment = .returned none ∧ ¬h.ServedAtBreak size alignment := by
  obtain ⟨hlo, hhi⟩ := hb.place_range
  constructor
  · rintro ⟨h', hret, hkept⟩
    have hused : h'.activeBytes = h.activeBytes := hkept.used_eq
    rcases alloc_cases hpos.ne' hret with
      ⟨hnone, hbump⟩ | ⟨curr, f, h1, -, hrest, ⟨hne, hzero, -⟩ | ⟨-, hbump⟩⟩
    · refine ⟨hnone, fun hserved => ?_⟩
      rcases allocateFromBump_cases size alignment hb.page with
        ⟨hnot, -⟩ | ⟨-, h1, hdone, -, -, -, -, hactive, -⟩
      · exact hnot hserved
      · have hsame : h' = h1 := congrArg Prod.snd (Ended.returned.inj (hbump.symm.trans hdone))
        rw [hsame, hactive] at hused
        exact uint32_add_ne hpos hsize hused
    · exact absurd hzero.symm hne
    · exfalso
      have hb1 : h1.Bounds := by
        rw [hrest]
        exact hb.sides
      have hactive1 : h1.activeBytes = uint32 (h.activeBytes + size) := by rw [hrest]
      rcases allocateFromBump_cases size alignment hb1.page with
        ⟨-, memory, mappedEnd, paging, hfail, -⟩ | ⟨-, h2, hdone, -, -, hbreak, -, hactive, -⟩
      · cases hbump.symm.trans hfail
        exact uint32_add_ne hpos hsize (hactive1.symm.trans hused)
      · -- both serve: the counter comes back only if the break goes to the middle
        
        have hmoved := hkept.break_eq
        grind [uint32]
  · rintro ⟨hnone, hnot⟩
    rcases allocateFromBump_cases size alignment hb.page with
      ⟨-, memory, mappedEnd, paging, hfail, hgrown, hsame⟩ | ⟨hserved, -⟩
    · refine ⟨{ h with memory := memory, heapMappedEnd := mappedEnd, paging := paging }, ?_, rfl, rfl, rfl,
        fun i hi => hsame i (hi.trans_le hb.break_le_mapped)⟩
      rw [alloc_of_search_none hpos.ne' hnone, hfail]
    · exact absurd hserved hnot

theorem firstFit_eq_none_iff {m : Memory} {p left : Nat} {blocks : List Block}
    (hl : Segment m p blocks 0) (hleft : blocks.length < left) (hfits : ∀ c ∈ blocks, c.stop < 2 ^ 32) :
    firstFit m size alignment left p = .returned none ↔
      ∀ b ∈ blocks, fit b.start b.stop size alignment = none := by
  induction blocks generalizing p left with
  | nil =>
    obtain ⟨left, rfl⟩ := Nat.exists_eq_succ_of_ne_zero (Nat.ne_of_gt hleft)
    have hp : p = 0 := hl
    simp [firstFit, hp]
  | cons c rest ih =>
    obtain ⟨left, rfl⟩ := Nat.exists_eq_succ_of_ne_zero (Nat.ne_of_gt (Nat.zero_lt_of_lt hleft))
    obtain ⟨rfl, hne, hsize, hrest⟩ := hl
    have hstop : uint32 (c.start + sizeOf m c.start) = c.stop := by
      rw [hsize]
      exact uint32_eq_self (hfits c (by simp))
    rw [firstFit, if_neg hne, hstop, List.forall_mem_cons]
    grind

-- A block that is too small is taken when the end of the payload wraps to below its own end.
theorem fit_eq_none_iff {b : Block} (hk : k < 30) (hlo : 0xD0000000 ≤ b.start) (hhi : b.stop ≤ 0xD1000000)
    (hover : 0x1000000 < size) (hsize : size < 2 ^ 32) :
    fit b.start b.stop size (2 ^ k) = none ↔
      (place b.start (2 ^ k)).payload + size < 2 ^ 32 ∨
        b.stop + 2 ^ 32 < (place b.start (2 ^ k)).payload + size := by
  have hstart : b.start ≤ b.stop := Nat.le_add_right _ _
  obtain ⟨hheader, hpayload, hlt⟩ := place_below hlo (hstart.trans hhi) hk
  set p := place b.start (2 ^ k) with hp
  have hprefix : ¬(0 < p.header - b.start ∧ p.header - b.start < sizeofFreeBlock) := by
    simp only [sizeofFreeBlock]
    omega
  simp only [fit, ← hp]
  rw [if_neg (by omega), if_neg hprefix]
  by_cases hwrap : p.payload + size < 2 ^ 32
  · rw [uint32_eq_self hwrap, if_pos (by omega)]
    exact ⟨fun _ => Or.inl hwrap, fun _ => rfl⟩
  · have hend : uint32 (p.payload + size) = p.payload + size - 2 ^ 32 := by
      rw [uint32]
      omega
    grind

theorem Bounds.not_servedAtBreak (hb : h.Bounds) (hk : k < 30) (hover : 0x1000000 < size)
    (hsize : size < 2 ^ 32) : ¬h.ServedAtBreak size (2 ^ k) := by
  rintro ⟨hcheck, -⟩
  obtain ⟨hlo, hhi⟩ := hb.place_range
  obtain ⟨-, hpayload, hlt⟩ := place_below hlo hhi hk
  rw [not_or, not_lt, not_lt, hb.limit, uint32, atLeastOne_two_pow] at hcheck
  omega

-- A request for more than the whole heap is refused, and nothing changes, exactly when no block of
-- the free list is taken for it and the break does not serve it. With a list in good order and an
-- alignment below 2^30, the first says that for no block the end of the payload wraps to at most
-- the end of the block, and the second is always so.
theorem oversized_refused_iff {h : Heap P} (hs : h.Reached)
    (hover : h.heapLimit - h.heapStart < size) (hsize : size < 2 ^ 32) :
    (h.Refused size (2 ^ k) ↔
      h.search size (2 ^ k) = .returned none ∧ ¬h.ServedAtBreak size (2 ^ k)) ∧
    ∀ blocks, h.Tidy blocks → Within h.heapStart h.heapBreak blocks → k < 30 →
      (h.Refused size (2 ^ k) ↔ ∀ b ∈ blocks,
        (place b.start (2 ^ k)).payload + size < 2 ^ 32 ∨
          b.stop + 2 ^ 32 < (place b.start (2 ^ k)).payload + size) := by
  have hb := hs.bounds
  have hover' : 0x1000000 < size := by
    rw [hb.start, hb.limit] at hover
    exact hover
  have hpos : 0 < size := by omega
  have hiff := refused_iff hb (2 ^ k) hpos hsize
  refine ⟨hiff, fun blocks ht hin hk' => ?_⟩
  rw [hiff, and_iff_left (hb.not_servedAtBreak hk' hover' hsize), search, atLeastOne_two_pow,
    firstFit_eq_none_iff ht.listed ht.length_lt ht.fits]
  refine forall₂_congr fun b hmem => ?_
  obtain ⟨hlo, hhi⟩ := hin b hmem
  have hlimit := hb.break_le_limit
  rw [hb.start] at hlo
  rw [hb.limit] at hlimit
  exact fit_eq_none_iff hk' hlo (hhi.trans hlimit) hover' hsize

end Heap

theorem HeapState.Reachable.reached {P : Type} [Paging P] {s : HeapState P} (hs : s.Reachable) :
    s.heap.Reached := by
  induction hs with
  | boot memory paging => exact .boot memory paging
  | @step s s' action hs hpermits hact ih =>
    cases action with
    | alloc size alignment =>
      obtain ⟨hsize, k, hk, rfl⟩ := hpermits
      obtain ⟨blocks, hi⟩ := hs.inv
      obtain ⟨⟨ptr, heap⟩, hret, hact⟩ := Ended.bind_eq_returned.mp hact
      cases hact
      have hroom : s.heap.heapLimit + size + 2 ^ 14 ≤ 2 ^ 32 := by
        have hlayout := hi.layout.room
        omega
      apply Heap.Reached.alloc ih hret
      rcases Heap.alloc_spec hi.tidy hi.layout hi.within hk hroom with
        ⟨h', hfail, hsame⟩ | ⟨h', blocks', b, ptr', hdone, -, hgrants⟩
      · cases hret.symm.trans hfail
        exact hsame.layout.start_le
      · cases hret.symm.trans hdone
        exact hgrants.layout.start_le
    | free a =>
      obtain ⟨heap, hret, hact⟩ := Ended.bind_eq_returned.mp hact
      cases hact
      exact .free ih hret
    | store address value =>
      cases hact
      exact .store address value ih
    | repage paging =>
      cases hact
      exact .repage paging ih

-- A heap without free blocks refuses.
theorem Heap.oversized_refused_boot :
    (Heap.init 0xD0000000 0xD1000000 (fun _ => 0) ()).Refused 0xFFFFFFFF (2 ^ 4) := by
  have hs : (Heap.init 0xD0000000 0xD1000000 (fun _ => 0) ()).Reached := .boot _ _
  apply ((Heap.oversized_refused_iff hs (by decide) (by decide)).2 [] ?_ ?_ (by decide)).mpr
  · exact fun b hb => absurd hb List.not_mem_nil
  · exact (HeapState.boot_inv _ _).tidy
  · exact (HeapState.boot_inv _ _).within

-- A block of 64 bytes comes back. From it a request for all but one byte of the address space is
-- served.
theorem HeapState.oversized_served : ∃ s : HeapState Unit, s.Reachable ∧
    s.heap.heapLimit - s.heap.heapStart < 0xFFFFFFFF ∧ ¬s.heap.Refused 0xFFFFFFFF (2 ^ 0) := by
  have hs0 : Reachable (boot (fun _ => 0) ()) := Reachable.boot _ _
  have hfirst : (boot (fun _ => 0) ()).Permits (.alloc 64 16) := ⟨by decide, 4, by decide, rfl⟩
  obtain ⟨s1, _, hact1, _⟩ := (boot_inv (fun _ => 0) ()).act hfirst
  have hs1 := Reachable.step hs0 hfirst hact1
  have hlive : s1.live = [⟨0xD0000020, 64, 16⟩] := by
    have hrun : ((boot (fun _ => 0) ()).act (.alloc 64 16) >>= fun s => Ended.returned s.live) =
        .returned [⟨0xD0000020, 64, 16⟩] := by
      decide +kernel
    rw [hact1] at hrun
    exact Ended.returned.inj hrun
  have hpermits : s1.Permits (.free ⟨0xD0000020, 64, 16⟩) := ⟨by rw [hlive]; simp, rfl⟩
  obtain ⟨blocks, hi⟩ := hs1.inv
  obtain ⟨s2, _, hact2, _⟩ := hi.act hpermits
  have hs2 := Reachable.step hs1 hpermits hact2
  have hb := hs2.reached.bounds
  refine ⟨s2, hs2, by rw [hb.start, hb.limit]; decide, ?_⟩
  rintro ⟨h', hret, -⟩
  have hrun : ((boot (fun _ => 0) ()).act (.alloc 64 16) >>= fun s =>
      s.act (.free ⟨0xD0000020, 64, 16⟩) >>= fun s =>
        s.heap.alloc 0xFFFFFFFF (2 ^ 0) >>= fun r => Ended.returned r.1) = .returned 0xD0000030 := by
    decide +kernel
  rw [hact1, Ended.returned_bind, hact2, Ended.returned_bind, hret] at hrun
  cases hrun

end Wirth.Kernel.Mm

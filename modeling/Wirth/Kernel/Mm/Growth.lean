import Wirth.Kernel.Mm.Alloc

namespace Wirth.Kernel.Mm

open Wirth.Lib

namespace Heap

variable {P : Type} {h h' : Heap P} {blocks : List Block} {size k : Nat}

-- The parts of the address space, with room for every sum that a request makes.
structure Layout (h : Heap P) : Prop where
  start_pos : 0 < h.heapStart
  start_le : h.heapStart ≤ h.heapBreak
  break_le_mapped : h.heapBreak ≤ h.heapMappedEnd
  break_le_limit : h.heapBreak ≤ h.heapLimit
  room : h.heapLimit + (h.heapLimit - h.heapStart) + 2 ^ 14 ≤ 2 ^ 32

-- Nothing is given out: the free list, the break and the bytes below it are as before.
structure Unchanged (h h' : Heap P) : Prop where
  layout : h'.Layout
  start_eq : h'.heapStart = h.heapStart
  limit_eq : h'.heapLimit = h.heapLimit
  break_eq : h'.heapBreak = h.heapBreak
  list_eq : h'.freeList = h.freeList
  active_eq : h'.activeBytes = h.activeBytes
  same : ∀ i, i < h.heapBreak → h'.memory i = h.memory i

structure Grants (blocks blocks' : List Block) (h h' : Heap P) (b : Block)
    (payload size alignment : Nat) : Prop where
  allocated : Allocated (fun x => Covers blocks x ∨ h.heapBreak ≤ x) h h' blocks' b payload size
    alignment
  covers : ∀ x, Covers blocks' x → Covers blocks x
  layout : h'.Layout
  start_eq : h'.heapStart = h.heapStart
  limit_eq : h'.heapLimit = h.heapLimit
  break_le : h.heapBreak ≤ h'.heapBreak
  stop_le : b.stop ≤ h'.heapBreak
  active_eq : h'.activeBytes = uint32 (h.activeBytes + size)

theorem allocateFromFreeList_spec (ht : h.Tidy blocks) (hk : k ≤ 12)
    (hfits : ∀ c ∈ blocks, c.start + size + 2 ^ 14 ≤ 2 ^ 32) :
    h.allocateFromFreeList size (2 ^ k) = .returned (0, h) ∨
      ∃ h' blocks' b payload,
        h.allocateFromFreeList size (2 ^ k) = .returned (payload, h') ∧
        (∀ x, Covers blocks' x → Covers blocks x) ∧
        Allocated (Covers blocks) h h' blocks' b payload size (2 ^ k) ∧
        h' = { h with
          memory := h'.memory, freeList := h'.freeList
          activeBytes := uint32 (h.activeBytes + size) } := by
  rcases firstFit_spec size (2 ^ k) ht.listed ht.length_lt ht.fits with
    hnone | ⟨front, b, back, f, rfl, hfit, hfound⟩
  · simp [allocateFromFreeList, hnone]
  · have hdivides := fit_divides hk (hfits b (by simp)) hfit
    obtain ⟨h', blocks', hret, hcovers, halloc, hrest⟩ := takeBlock_spec ht hdivides
    grind [allocateFromFreeList, Ended.returned_bind]

def atLeastOne (alignment : Nat) : Nat := if alignment = 0 then 1 else alignment

@[simp] theorem atLeastOne_two_pow (k : Nat) : atLeastOne (2 ^ k) = 2 ^ k :=
  if_neg (Nat.two_pow_pos k).ne'

variable [Paging P]

theorem mapNextHeapPage_spec (hlimit : h.heapLimit + kPageSize < 2 ^ 32) :
    (∃ paging, h.mapNextHeapPage = (false, { h with paging := paging })) ∨
      h.heapMappedEnd < h.heapLimit ∧ ∃ memory paging,
        h.mapNextHeapPage = (true, { h with
          memory := memory, heapMappedEnd := h.heapMappedEnd + kPageSize, paging := paging }) ∧
        ∀ i, i < h.heapMappedEnd → memory i = h.memory i := by
  by_cases hfull : h.heapLimit ≤ h.heapMappedEnd
  · exact Or.inl ⟨h.paging, by rw [mapNextHeapPage, if_pos hfull]⟩
  rcases hframe : Paging.allocFrame h.paging with ⟨phys, paging⟩
  by_cases hphys : phys = 0
  · simp [mapNextHeapPage, hfull, hframe, hphys]
  rcases hmap : Paging.mapPage paging h.heapMappedEnd phys true false with ⟨mapped, paging'⟩
  cases mapped with
  | false =>
    refine Or.inl ⟨Paging.freeFrame paging' phys, ?_⟩
    simp only [mapNextHeapPage, if_neg hfull, hframe, if_neg hphys, hmap, Bool.false_eq_true,
      if_false]
  | true =>
    have hend : uint32 (h.heapMappedEnd + kPageSize) = h.heapMappedEnd + kPageSize :=
      uint32_eq_self (by omega)
    refine Or.inr ⟨by omega, (h.showPage phys paging').memory, paging', ?_, ?_⟩
    · simp only [mapNextHeapPage, if_neg hfull, hframe, if_neg hphys, hmap, if_true, showPage, hend]
    · intro i hi
      exact if_neg (by omega)

theorem mapUpTo_spec (target left : Nat) (hlimit : h.heapLimit + kPageSize < 2 ^ 32)
    (hpos : 0 < left) (hleft : h.heapLimit + kPageSize ≤ h.heapMappedEnd + kPageSize * left) :
    ∃ ok memory mappedEnd paging, mapUpTo target left h = .returned (ok, { h with
        memory := memory, heapMappedEnd := mappedEnd, paging := paging }) ∧
      h.heapMappedEnd ≤ mappedEnd ∧ (ok = true → target ≤ mappedEnd) ∧
      ∀ i, i < h.heapMappedEnd → memory i = h.memory i := by
  induction left generalizing h with
  | zero => omega
  | succ left ih =>
    by_cases hdone : h.heapMappedEnd < target
    · rcases mapNextHeapPage_spec hlimit with ⟨paging, hfail⟩ | ⟨hmore, memory, paging, hgrown, hsame⟩
      · simp [mapUpTo, hdone, hfail]
      · rw [Nat.mul_succ] at hleft
        obtain ⟨ok, memory', mappedEnd, paging', hret, hle, hok, hsame'⟩ :=
          @ih { h with memory := memory, heapMappedEnd := h.heapMappedEnd + kPageSize, paging := paging }
            hlimit (by grind)
            (by simp only; omega)
        refine ⟨ok, memory', mappedEnd, paging', ?_, by simp only at hle; omega, hok, ?_⟩
        · simp only [mapUpTo, if_pos hdone, hgrown, if_true, hret]
        grind
    · refine ⟨true, h.memory, h.heapMappedEnd, h.paging, ?_, le_refl _, fun _ => by omega,
        fun _ _ => rfl⟩
      simp only [mapUpTo, if_neg hdone]

-- A request is served at the break when it passes the check and the pages can be had.
def ServedAtBreak (h : Heap P) (size alignment : Nat) : Prop :=
  let p := place h.heapBreak (atLeastOne alignment)
  let allocEnd := uint32 (p.payload + size)
  ¬(allocEnd < p.payload ∨ h.heapLimit < allocEnd) ∧
    ∃ h', mapUpTo allocEnd rounds h = .returned (true, h')

theorem allocateFromBump_cases (size alignment : Nat) (hlimit : h.heapLimit + kPageSize < 2 ^ 32) :
    (¬h.ServedAtBreak size alignment ∧ ∃ memory mappedEnd paging,
      h.allocateFromBump size (atLeastOne alignment) = .returned (0, { h with
        memory := memory, heapMappedEnd := mappedEnd, paging := paging }) ∧
      h.heapMappedEnd ≤ mappedEnd ∧ ∀ i, i < h.heapMappedEnd → memory i = h.memory i) ∨
    h.ServedAtBreak size alignment ∧ ∃ h', h.allocateFromBump size (atLeastOne alignment) =
        .returned ((place h.heapBreak (atLeastOne alignment)).payload, h') ∧
      h'.heapStart = h.heapStart ∧ h'.heapLimit = h.heapLimit ∧
      h'.heapBreak = uint32 ((place h.heapBreak (atLeastOne alignment)).payload + size) ∧
      h'.heapBreak ≤ h'.heapMappedEnd ∧ h'.activeBytes = uint32 (h.activeBytes + size) ∧
      ∃ h1 : Heap P, h' = h1.writeHeader (place h.heapBreak (atLeastOne alignment)).header h'.heapBreak size ∧
        h1.freeList = h.freeList ∧ ∀ i, i < h.heapMappedEnd → h1.memory i = h.memory i := by
  set p := place h.heapBreak (atLeastOne alignment) with hp
  set allocEnd := uint32 (p.payload + size) with hend
  by_cases hfail : allocEnd < p.payload ∨ h.heapLimit < allocEnd
  · refine Or.inl ⟨fun hserved => hserved.1 hfail, h.memory, h.heapMappedEnd, h.paging, ?_, le_refl _,
      fun _ _ => rfl⟩
    simp only [allocateFromBump, ← hp, ← hend, if_pos hfail]
  obtain ⟨ok, memory, mappedEnd, paging, hret, hgrown, hok, hsame⟩ :=
    mapUpTo_spec (h := h) allocEnd rounds hlimit (by decide) (by simp only [kPageSize, rounds] at *; omega)
  cases ok with
  | false =>
    refine Or.inl ⟨?_, memory, mappedEnd, paging, ?_, hgrown, hsame⟩
    · rintro ⟨-, h1, hmapped⟩
      grind
    · simp only [allocateFromBump, ← hp, ← hend, if_neg hfail, hret, Ended.returned_bind,
        Bool.false_eq_true, if_false]
  | true =>
    obtain ⟨h1, hh1⟩ : ∃ h1 : Heap P, h1 = { h with
      memory := memory, heapMappedEnd := mappedEnd, paging := paging, heapBreak := allocEnd } := ⟨_, rfl⟩
    refine Or.inr ⟨⟨hfail, _, hret⟩, h1.writeHeader p.header allocEnd size, ?_, ?_⟩
    · simp only [allocateFromBump, ← hp, ← hend, if_neg hfail, hret, Ended.returned_bind, if_true, hh1]
    · rw [hh1]
      exact ⟨rfl, rfl, rfl, hok rfl, rfl, _, rfl, rfl, hsame⟩

theorem allocateFromBump_spec (ht : h.Tidy blocks) (hlayout : h.Layout)
    (hin : Within h.heapStart h.heapBreak blocks) (hk : k ≤ 12)
    (hsize : h.heapLimit + size + 2 ^ 14 ≤ 2 ^ 32) :
    (∃ memory mappedEnd paging, h.allocateFromBump size (2 ^ k) = .returned (0, { h with
        memory := memory, heapMappedEnd := mappedEnd, paging := paging }) ∧
      h.heapMappedEnd ≤ mappedEnd ∧ ∀ i, i < h.heapMappedEnd → memory i = h.memory i) ∨
    ∃ h' b payload, h.allocateFromBump size (2 ^ k) = .returned (payload, h') ∧
      Allocated (fun x => h.heapBreak ≤ x) h h' blocks b payload size (2 ^ k) ∧
      b.stop = h'.heapBreak ∧ h'.Layout ∧ h'.heapStart = h.heapStart ∧ h'.heapLimit = h.heapLimit ∧
      h'.activeBytes = uint32 (h.activeBytes + size) := by
  obtain ⟨hstart, hle, hmapped, hbreak, hroom⟩ := hlayout
  have hpow : 2 ^ k ≤ 2 ^ 12 := Nat.pow_le_pow_right (by decide) hk
  obtain ⟨hpayload, haligned, hbefore, hafter⟩ := place_spec h.heapBreak hk (by omega)
  have hheadroom : 16 ≤ headroom (2 ^ k) ∧ headroom (2 ^ k) ≤ 2 ^ 12 := by
    simp only [headroom, sizeofHeapHeader]
    omega
  have hcases := allocateFromBump_cases (h := h) size (2 ^ k) (by simp only [kPageSize]; omega)
  rw [atLeastOne_two_pow] at hcases
  rcases hcases with ⟨-, hfail⟩ | ⟨hserved, h', hret, hstart', hlimit', hbreak', hmapped', hactive, h1,
    hwritten, hlist, hsame⟩
  · exact Or.inl hfail
  simp only [ServedAtBreak, atLeastOne_two_pow] at hserved
  set p := place h.heapBreak (2 ^ k) with hp
  have hend : uint32 (p.payload + size) = p.payload + size := uint32_eq_self (by omega)
  rw [hend] at hbreak' hserved
  refine Or.inr ⟨h', ⟨p.header, p.payload + size - p.header⟩, p.payload, hret,
    ⟨?_, ?_, hpayload, haligned, ?_, ?_, ?_, ?_⟩, ?_, ?_, hstart', hlimit', hactive⟩
  · have htidy : h1.Tidy blocks := by
      refine ht.frame hlist fun i hi => ?_
      have hlt := (hin.covers hi).2
      exact hsame i (by omega)
    rw [hwritten]
    refine htidy.frame rfl fun i hi => writeHeader_same ?_
    have hlt := (hin.covers hi).2
    omega
  · grind [writeHeader_headerAt]
  · simp only [Block.stop]
    omega
  · grind [Block.Holds]
  · intro x hx hcx
    have hlt := (hin.covers hcx).2
    simp only [Block.Holds] at hx
    omega
  · intro x hx
    rw [hwritten, writeHeader_same (by omega)]
    exact hsame x (by omega)
  · grind [Block.stop]
  · exact ⟨by omega, by omega, hmapped', by omega, by omega⟩

theorem alloc_spec (ht : h.Tidy blocks) (hlayout : h.Layout)
    (hin : Within h.heapStart h.heapBreak blocks) (hk : k ≤ 12)
    (hsize : h.heapLimit + size + 2 ^ 14 ≤ 2 ^ 32) :
    (∃ h', h.alloc size (2 ^ k) = .returned (0, h') ∧ Unchanged h h') ∨
      ∃ h' blocks' b ptr, h.alloc size (2 ^ k) = .returned (ptr, h') ∧ 0 < ptr ∧
        Grants blocks blocks' h h' b ptr size (2 ^ k) := by
  by_cases hzero : size = 0
  · exact Or.inl ⟨h, by rw [alloc, if_pos hzero], hlayout, rfl, rfl, rfl, rfl, rfl, fun _ _ => rfl⟩
  have hpow : ¬2 ^ k = 0 := (Nat.two_pow_pos k).ne'
  have hfits : ∀ c ∈ blocks, c.start + size + 2 ^ 14 ≤ 2 ^ 32 := by
    intro c hc
    have hbreak := hlayout.break_le_limit
    have hstop := (hin c hc).2
    simp only [Block.stop] at hstop
    omega
  rcases allocateFromFreeList_spec ht hk hfits with
    hnone | ⟨h', blocks', b, ptr, hret, hcovers, halloc, hrest⟩
  · have hcall : h.alloc size (2 ^ k) = h.allocateFromBump size (2 ^ k) := by
      simp only [alloc, if_neg hzero, if_neg hpow, hnone, Ended.returned_bind, ne_eq, not_true_eq_false,
        if_false]
    rcases allocateFromBump_spec ht hlayout hin hk hsize with
      ⟨memory, mappedEnd, paging, hret, hgrown, hsame⟩ |
      ⟨h', b, ptr, hret, halloc, hstop, hlayout', hstart, hlimit, hactive⟩
    · have hbreak := hlayout.break_le_mapped
      refine Or.inl ⟨_, hcall.trans hret, ?_, rfl, rfl, rfl, rfl, rfl, fun i hi => hsame i (by omega)⟩
      exact ⟨hlayout.start_pos, hlayout.start_le, hbreak.trans hgrown, hlayout.break_le_limit,
        hlayout.room⟩
    · refine Or.inr ⟨h', blocks, b, ptr, hcall.trans hret, halloc.payload_pos,
        halloc.mono fun x hx => Or.inr hx, fun x hx => hx, hlayout', hstart, hlimit, ?_, hstop.le,
        hactive⟩
      have hfirst := halloc.inside b.start ⟨le_refl _, halloc.start_lt_stop⟩
      have hlt := halloc.start_lt_stop
      omega
  · refine Or.inr ⟨h', blocks', b, ptr, ?_, halloc.payload_pos, ?_⟩
    · simp only [alloc, if_neg hzero, if_neg hpow, hret, Ended.returned_bind, ne_eq,
        halloc.payload_pos.ne', not_false_eq_true, if_true]
    · refine ⟨halloc.mono fun x hx => Or.inl hx, hcovers, ?_, ?_, ?_, ?_, ?_, ?_⟩
      · rw [hrest]
        exact ⟨hlayout.start_pos, hlayout.start_le, hlayout.break_le_mapped, hlayout.break_le_limit,
          hlayout.room⟩
      · rw [hrest]
      · rw [hrest]
      · rw [hrest]
      · have hlt := halloc.start_lt_stop
        have hlast := (hin.covers (halloc.inside (b.stop - 1) ⟨by omega, by omega⟩)).2
        rw [hrest]
        simp only
        omega
      · rw [hrest]

end Heap

end Wirth.Kernel.Mm

import Wirth.Kernel.Mm.Heap
import Wirth.Lib.Blocks

namespace Wirth.Kernel.Mm

open Wirth.Lib

-- From the node at `p` the links lead through `blocks` to `q`, and every node has the size
-- of its block.
def Segment (m : Memory) : Nat → List Block → Nat → Prop
  | p, [], q => p = q
  | p, b :: rest, q => p = b.start ∧ p ≠ 0 ∧ sizeOf m p = b.size ∧ Segment m (nextOf m p) rest q

variable {m m' : Memory} {p q start : Nat} {b c d : Block} {front back blocks : List Block}

@[simp] theorem segment_nil : Segment m p [] q ↔ p = q := Iff.rfl

@[simp] theorem segment_cons : Segment m p (b :: blocks) q ↔
    p = b.start ∧ p ≠ 0 ∧ sizeOf m p = b.size ∧ Segment m (nextOf m p) blocks q := Iff.rfl

theorem segment_append : Segment m p (front ++ back) q ↔
    ∃ mid, Segment m p front mid ∧ Segment m mid back q := by
  induction front generalizing p with
  | nil => simp
  | cons b rest ih =>
    simp only [List.cons_append, segment_cons, ih]
    grind

theorem nextOf_lt (m : Memory) (block : Nat) : nextOf m block < 2 ^ 32 := Memory.read32_lt _ _

theorem Segment.frame (h : Segment m p blocks q)
    (hsame : ∀ b ∈ blocks, m.Same m' b.start (b.start + 8)) : Segment m' p blocks q := by
  induction blocks generalizing p with
  | nil => exact h
  | cons b rest ih =>
    obtain ⟨rfl, hne, hsize, hrest⟩ := h
    have hb := hsame b (by simp)
    have hnext : nextOf m' b.start = nextOf m b.start :=
      Memory.Same.read32 (hb.mono (by omega) (by omega))
    refine ⟨rfl, hne, ?_, ?_⟩
    · rw [← hsize]
      exact Memory.Same.read32 (hb.mono (by omega) (by omega))
    grind

theorem Segment.start_ne_zero (h : Segment m p blocks q) (hb : b ∈ blocks) : b.start ≠ 0 := by
  induction blocks generalizing p with
  | nil => simp at hb
  | cons c rest ih =>
    obtain ⟨rfl, hne, _, hrest⟩ := h
    grind

def headOf : List Block → Nat
  | [] => 0
  | b :: _ => b.start

theorem Segment.head (h : Segment m p blocks 0) : p = headOf blocks := by
  cases blocks with
  | nil => exact h
  | cons b rest => exact h.1

def lastOf (prev : Nat) : List Block → Nat
  | [] => prev
  | b :: rest => lastOf b.start rest

theorem lastOf_concat (prev : Nat) (front : List Block) (b : Block) :
    lastOf prev (front ++ [b]) = b.start := by
  induction front generalizing prev with
  | nil => rfl
  | cons c rest ih => exact ih c.start

theorem seek_spec {left prev : Nat} (h : Segment m p (front ++ back) 0)
    (hleft : front.length < left) (hfront : ∀ b ∈ front, b.start < start)
    (hback : ∀ b ∈ back, start ≤ b.start) :
    seek m start left prev p = .returned (lastOf prev front, headOf back) := by
  induction front generalizing p left prev with
  | nil =>
    obtain ⟨left, rfl⟩ := Nat.exists_eq_succ_of_ne_zero (Nat.ne_of_gt hleft)
    have hp := h.head
    have hstop : ¬(p ≠ 0 ∧ p < start) := by
      rintro ⟨h1, h2⟩
      cases back with
      | nil => exact h1 hp
      | cons b rest =>
        grind [headOf]
    rw [seek, if_neg hstop, hp]
    rfl
  | cons b rest ih =>
    obtain ⟨left, rfl⟩ := Nat.exists_eq_succ_of_ne_zero (Nat.ne_of_gt (Nat.zero_lt_of_lt hleft))
    obtain ⟨rfl, hne, _, hrest⟩ := h
    rw [seek, if_pos ⟨hne, hfront b (by simp)⟩]
    exact ih hrest (by simpa using hleft) fun c hc => hfront c (List.mem_cons_of_mem _ hc)

theorem Segment.relink (hfront : Segment m p front b.start) (hne : b.start ≠ 0)
    (hsame : ∀ lo hi, hi ≤ b.start ∨ b.start + 8 ≤ lo → m.Same m' lo hi)
    (hsize : sizeOf m' b.start = b.size) (hback : Segment m (nextOf m' b.start) back q)
    (hbefore : ∀ c ∈ front, c.start + 8 ≤ b.start) (hafter : ∀ c ∈ back, b.start + 8 ≤ c.start) :
    Segment m' p (front ++ b :: back) q := by
  rw [segment_append]
  refine ⟨b.start, hfront.frame fun c hc => hsame _ _ (Or.inl (hbefore c hc)), rfl, hne, hsize, ?_⟩
  exact hback.frame fun c hc => hsame _ _ (Or.inr (hafter c hc))

theorem before_of_ascending (h : Ascending (front ++ b :: back)) (hroom : Roomy 8 (front ++ b :: back)) :
    ∀ c ∈ front, c.start + 8 ≤ b.start := by
  intro c hc
  have hle := (List.pairwise_append.mp h).2.2 c hc b (by simp)
  have hsize := hroom c (by simp [hc])
  simp only [Block.stop] at hle
  omega

theorem after_of_ascending (h : Ascending (front ++ b :: back)) (hroom : Roomy 8 (front ++ b :: back)) :
    ∀ c ∈ back, b.start + 8 ≤ c.start := by
  intro c hc
  have hle := (List.pairwise_cons.mp (List.pairwise_append.mp h).2.1).1 c hc
  have hsize := hroom b (by simp)
  simp only [Block.stop] at hle
  omega

namespace Heap

variable {P : Type} {h h' h'' : Heap P} {s t : Nat → Prop}

def Listed (h : Heap P) (blocks : List Block) : Prop := Segment h.memory h.freeList blocks 0

structure Relinks (s : Nat → Prop) (h h' : Heap P) : Prop where
  rest : h' = { h with memory := h'.memory, freeList := h'.freeList }
  same : ∀ i, ¬s i → h'.memory i = h.memory i

theorem Listed.frame (hl : h.Listed blocks) (hroom : Roomy 8 blocks) (hfree : h'.freeList = h.freeList)
    (hsame : ∀ i, Covers blocks i → h'.memory i = h.memory i) : h'.Listed blocks := by
  rw [Listed, hfree]
  refine Segment.frame hl fun c hc i hlo hhi => hsame i ⟨c, hc, hlo, ?_⟩
  have hsize := hroom c hc
  simp only [Block.stop]
  omega

theorem Relinks.refl (s : Nat → Prop) (h : Heap P) : Relinks s h h := ⟨rfl, fun _ _ => rfl⟩

theorem Relinks.trans (h1 : Relinks s h h') (h2 : Relinks s h' h'') : Relinks s h h'' := by
  refine ⟨?_, fun i hi => (h2.same i hi).trans (h1.same i hi)⟩
  rw [h2.rest, h1.rest]

theorem Relinks.mono (h1 : Relinks s h h') (hst : ∀ i, s i → t i) : Relinks t h h' :=
  ⟨h1.rest, fun i hi => h1.same i fun hs => hi (hst i hs)⟩

variable {a v lo hi : Nat}

theorem sizeOf_setSize (hv : v < 2 ^ 32) : sizeOf (h.setSize a v).memory a = v :=
  Memory.read32_write32 _ _ hv

theorem sizeOf_setNext : sizeOf (h.setNext a v).memory a = sizeOf h.memory a :=
  Memory.read32_write32_of_apart (Or.inl (le_refl _))

theorem nextOf_setNext (hv : v < 2 ^ 32) : nextOf (h.setNext a v).memory a = v :=
  Memory.read32_write32 _ _ hv

theorem setSize_same (hout : hi ≤ a ∨ a + 8 ≤ lo) : h.memory.Same (h.setSize a v).memory lo hi :=
  Memory.write32_outside (by omega)

theorem setNext_same (hout : hi ≤ a ∨ a + 8 ≤ lo) : h.memory.Same (h.setNext a v).memory lo hi :=
  Memory.write32_outside (by omega)

theorem setSize_relinks (hb : 8 ≤ b.size) : Relinks b.Holds h (h.setSize b.start v) := by
  refine ⟨rfl, fun i hi => if_neg ?_⟩
  simp only [Block.Holds, Block.stop] at hi
  omega

theorem setNext_relinks (hb : 8 ≤ b.size) : Relinks b.Holds h (h.setNext b.start v) := by
  refine ⟨rfl, fun i hi => if_neg ?_⟩
  simp only [Block.Holds, Block.stop] at hi
  omega

theorem absorb_listed (hl : h.Listed (front ++ b :: c :: back))
    (hasc : Ascending (front ++ b :: c :: back)) (hroom : Roomy 8 (front ++ b :: c :: back))
    (htouch : b.stop = c.start) (hfits : c.stop < 2 ^ 32) :
    (h.absorb b.start c.start).Listed (front ++ b.join c :: back) ∧
      Relinks b.Holds h (h.absorb b.start c.start) := by
  have hbsize := hroom b (by simp)
  simp only [Block.stop] at htouch hfits
  obtain ⟨mid, hfront, hmid⟩ := segment_append.mp hl
  obtain ⟨rfl, hne, hsizeb, hnext, _, hsizec, hback⟩ := hmid
  rw [hnext] at hsizec hback
  set h1 := h.setSize b.start (uint32 (sizeOf h.memory b.start + sizeOf h.memory c.start)) with hh1
  have hkeep : nextOf h1.memory c.start = nextOf h.memory c.start :=
    (setSize_same (Or.inr (by omega))).read32
  have hsum : uint32 (sizeOf h.memory b.start + sizeOf h.memory c.start) = b.size + c.size := by
    rw [hsizeb, hsizec]
    exact uint32_eq_self (by omega)
  have hdone : h.absorb b.start c.start = h1.setNext b.start (nextOf h1.memory c.start) := rfl
  rw [hdone]
  refine ⟨?_, (setSize_relinks hbsize).trans (setNext_relinks hbsize)⟩
  refine Segment.relink (b := b.join c) hfront hne ?_ ?_ ?_ (before_of_ascending (b := b) hasc hroom) ?_
  · intro lo hi hout i hlo hhi
    rw [Block.join_start] at hout
    rw [setNext_same hout i hlo hhi, setSize_same hout i hlo hhi]
  · grind [Block.join_start, sizeOf_setNext, sizeOf_setSize, Block.join_size]
  · grind [Block.join_start, nextOf_setNext, nextOf_lt]
  · exact fun d hd => after_of_ascending hasc hroom d (List.mem_cons_of_mem _ hd)

theorem mergeNext_listed (hl : h.Listed (front ++ b :: back))
    (hasc : Ascending (front ++ b :: back)) (hroom : Roomy 8 (front ++ b :: back))
    (hfits : ∀ c ∈ b :: back, c.stop < 2 ^ 32) :
    (h.mergeNext b.start).Listed (front ++ joinNext b back) ∧
      Relinks b.Holds h (h.mergeNext b.start) := by
  obtain ⟨_, _, rfl, _, hsize, hback⟩ := segment_append.mp hl
  have hstop : uint32 (b.start + sizeOf h.memory b.start) = b.stop := by
    rw [hsize]
    exact uint32_eq_self (hfits b (by simp))
  have hnext := hback.head
  have hmerge : h.mergeNext b.start =
      if headOf back ≠ 0 ∧ b.stop = headOf back then h.absorb b.start (headOf back) else h := by
    simp only [mergeNext, hstop, hnext]
  cases back with
  | nil =>
    simpa [hmerge] using ⟨hl, Relinks.refl _ _⟩
  | cons c rest =>
    have hne : c.start ≠ 0 := hl.start_ne_zero (by simp)
    rw [hmerge, headOf, joinNext]
    by_cases htouch : b.stop = c.start
    · rw [if_pos htouch, if_pos ⟨hne, htouch⟩]
      exact absorb_listed hl hasc hroom htouch (hfits c (by simp))
    simp [Relinks.refl, htouch, hl]

theorem link_listed (hl : h.Listed (front ++ back)) (hasc : Ascending (front ++ b :: back))
    (hroom : Roomy 8 (front ++ b :: back)) (hne : b.start ≠ 0)
    (hsize : sizeOf h.memory b.start = b.size)
    (hfits : ∀ c ∈ front ++ b :: back, c.stop < 2 ^ 32) :
    (h.link (lastOf 0 front) b.start (headOf back)).Listed (front ++ b :: back) ∧
      Relinks (fun x => b.Holds x ∨ Covers front x) h
        (h.link (lastOf 0 front) b.start (headOf back)) := by
  have hbsize := hroom b (by simp)
  obtain ⟨mid, hfront, hback⟩ := segment_append.mp hl
  have hhead : headOf back < 2 ^ 32 := by
    cases back with
    | nil => decide
    | cons c rest =>
      have hc := hfits c (by simp)
      grind [Block.stop, headOf]
  have hmid := hback.head
  subst hmid
  -- first the new node in front of the rest
  have hnode : Segment (h.setNext b.start (headOf back)).memory b.start ([] ++ b :: back) 0 := by
    refine Segment.relink rfl hne (fun lo hi hout => setNext_same hout) ?_ ?_ (by simp)
      (after_of_ascending hasc hroom)
    · rw [sizeOf_setNext, hsize]
    · rw [nextOf_setNext hhead]
      exact hback
  have hrelinks : Relinks (fun x => b.Holds x ∨ Covers front x) h (h.setNext b.start (headOf back)) :=
    (setNext_relinks hbsize).mono fun i hi => Or.inl hi
  rcases List.eq_nil_or_concat' front with rfl | ⟨before, p, rfl⟩
  · exact ⟨hnode, rfl, hrelinks.same⟩
  · rw [List.append_assoc] at hasc hroom hfits
    obtain ⟨_, hbefore, rfl, hpne, hpsize, _⟩ := segment_append.mp hfront
    have hpb := after_of_ascending hasc hroom b (by simp)
    have hpsmall := hroom p (by simp)
    set h1 := h.setNext b.start (headOf back) with hh1
    have hdone : h.link (lastOf 0 (before ++ [p])) b.start (headOf back) = h1.setNext p.start b.start := by
      rw [lastOf_concat, link, if_neg hpne]
    rw [hdone, List.append_assoc]
    refine ⟨Segment.relink (b := p) ?_ hpne (fun lo hi hout => setNext_same hout) ?_ ?_
      (before_of_ascending hasc hroom) (after_of_ascending hasc hroom), ?_⟩
    · exact hbefore.frame fun c hc => setNext_same (by
        have hcp := before_of_ascending hasc hroom c hc
        omega)
    · rw [sizeOf_setNext, ← hpsize]
      exact (setNext_same (by omega)).read32
    · rw [nextOf_setNext (by have hb := hfits b (by simp); simp only [Block.stop] at hb; omega)]
      exact hnode
    · refine hrelinks.trans ((setNext_relinks hpsmall).mono fun i hi => Or.inr ?_)
      exact ⟨p, by simp, hi⟩

-- The two merges after a block was linked in leave the list that `insertBlock` describes.
theorem merges_listed (hl : h.Listed (front ++ b :: back)) (hasc : Ascending (front ++ b :: back))
    (hroom : Roomy 8 (front ++ b :: back)) (hsep : Separated (front ++ back))
    (hfits : ∀ c ∈ front ++ b :: back, c.stop < 2 ^ 32) :
    ∃ node h', h.mergePrev (lastOf 0 front) b.start = (node, h') ∧
      (h'.mergeNext node).Listed (insertBlock b (front ++ back)) ∧
      Relinks (fun x => b.Holds x ∨ Covers front x) h (h'.mergeNext node) := by
  have hback : insertBlock b back = joinNext b back :=
    insertBlock_front fun c hc => by
      have hbc := after_of_ascending hasc hroom c hc
      omega
  have hlast : ∀ c ∈ b :: back, c.stop < 2 ^ 32 := fun c hc => hfits c (List.mem_append_right _ hc)
  rcases List.eq_nil_or_concat' front with rfl | ⟨before, p, rfl⟩
  · obtain ⟨hlisted, hrelinks⟩ := mergeNext_listed hl hasc hroom hlast
    refine ⟨b.start, h, if_neg fun hand => hand.1 rfl, ?_, hrelinks.mono fun i hi => Or.inl hi⟩
    rw [List.nil_append, hback]
    exact hlisted
  rw [List.append_assoc] at hl hasc hroom hfits hsep
  obtain ⟨_, hbefore, rfl, hpne, hpsize, _⟩ := segment_append.mp hl
  have hpb := after_of_ascending hasc hroom b (by simp)
  have hpstop : uint32 (p.start + sizeOf h.memory p.start) = p.stop := by
    rw [hpsize]
    exact uint32_eq_self (hfits p (by simp))
  -- the blocks in front of `p` are too far away to touch the new one
  have hfar : ∀ c ∈ before, c.start < b.start ∧ c.stop ≠ b.start := by
    intro c hc
    have hcp := (List.pairwise_append.mp hsep).2.2 c hc p (by simp)
    simp only [Block.stop] at hcp ⊢
    omega
  have hmerge : h.mergePrev (lastOf 0 (before ++ [p])) b.start =
      if p.start ≠ 0 ∧ p.stop = b.start then (p.start, h.absorb p.start b.start)
      else (b.start, h) := by
    rw [lastOf_concat, mergePrev, hpstop]
  by_cases htouch : p.stop = b.start
  · obtain ⟨hjoined, hrelinks⟩ := absorb_listed hl hasc hroom htouch (hfits b (by simp))
    have hfits' : ∀ c ∈ p.join b :: back, c.stop < 2 ^ 32 := by
      intro c hc
      rcases List.mem_cons.mp hc with rfl | hc
      · grind [Block.join_stop]
      · exact hfits c (by simp [hc])
    obtain ⟨hlisted, hrelinks'⟩ := mergeNext_listed hjoined (hasc.joined htouch) hroom.joined hfits'
    refine ⟨p.start, h.absorb p.start b.start, by rw [hmerge, if_pos ⟨hpne, htouch⟩], ?_, ?_⟩
    · rw [List.append_assoc, insertBlock_append hfar, List.singleton_append,
        insertBlock_touching (by omega) htouch]
      exact hlisted
    · refine (hrelinks.mono fun i hi => Or.inr ⟨p, by simp, hi⟩).trans (hrelinks'.mono fun i hi => ?_)
      rcases (Block.join_holds htouch i).mp hi with hi | hi
      · exact Or.inr ⟨p, by simp, hi⟩
      · exact Or.inl hi
  · have hall : ∀ c ∈ before ++ [p], c.start < b.start ∧ c.stop ≠ b.start := by
      intro c hc
      rcases List.mem_append.mp hc with hc | hc
      · exact hfar c hc
      · grind
    obtain ⟨hlisted, hrelinks⟩ := @mergeNext_listed b (before ++ [p]) back P h (by simpa using hl)
      (by simpa using hasc) (by simpa using hroom) hlast
    refine ⟨b.start, h, by rw [hmerge, if_neg fun hand => htouch hand.2], ?_,
      hrelinks.mono fun i hi => Or.inl hi⟩
    grind [insertBlock_append]

-- Adding a block to the list: the call returns, the list covers what it did and the block,
-- and no byte outside of these was written.
theorem insertFreeBlock_spec (hl : h.Listed blocks) (hsep : Separated blocks) (hroom : Roomy 8 blocks)
    (hne : b.start ≠ 0) (hsize : 8 ≤ b.size) (hapart : ∀ c ∈ blocks, b.Apart c)
    (hfits : ∀ c ∈ b :: blocks, c.stop < 2 ^ 32) :
    ∃ h', h.insertFreeBlock b.start b.size = .returned h' ∧ h'.Listed (insertBlock b blocks) ∧
      Relinks (fun x => b.Holds x ∨ Covers blocks x) h h' := by
  have hwithin : Within 0 (2 ^ 32) blocks := fun c hc =>
    ⟨Nat.zero_le _, (hfits c (List.mem_cons_of_mem _ hc)).le⟩
  have hlength := hsep.ascending.length_le hroom hwithin (Nat.zero_le _)
  have hsmall : Roomy 1 blocks := fun c hc => le_trans (by decide) (hroom c hc)
  obtain ⟨front, back, rfl, hfront, hback⟩ := hsep.ascending.split b.start
  have hasc := hsep.ascending.between hsmall (by omega) hapart hfront hback
  have hroom' : Roomy 8 (front ++ b :: back) := by
    intro c hc
    rcases List.mem_append.mp hc with hc | hc
    · exact hroom c (by simp [hc])
    rcases List.mem_cons.mp hc with rfl | hc
    · exact hsize
    · exact hroom c (by simp [hc])
  have hfits' : ∀ c ∈ front ++ b :: back, c.stop < 2 ^ 32 := by
    intro c hc
    exact hfits c (by simpa [or_left_comm] using hc)
  set h1 := (h.setSize b.start b.size).setNext b.start 0 with hh1
  have hwritten : Relinks b.Holds h h1 := (setSize_relinks hsize).trans (setNext_relinks hsize)
  have hl1 : h1.Listed (front ++ back) := by
    refine hl.frame hroom rfl fun i hi => hwritten.same i fun hb => ?_
    obtain ⟨c, hc, hci⟩ := hi
    exact (hapart c hc).not_holds hb hci
  have hsize1 : sizeOf h1.memory b.start = b.size := by
    have hb := hfits b (by simp)
    simp only [Block.stop] at hb
    rw [hh1, sizeOf_setNext, sizeOf_setSize (by omega)]
  have hseek : seek h1.memory b.start rounds 0 h1.freeList = .returned (lastOf 0 front, headOf back) := by
    refine seek_spec hl1 ?_ hfront hback
    rw [List.length_append] at hlength
    simp only [rounds]
    omega
  obtain ⟨hlinked, hrelinks⟩ := link_listed hl1 hasc hroom' hne hsize1 hfits'
  obtain ⟨node, h2, hmerge, hlisted, hrelinks'⟩ := merges_listed hlinked hasc hroom' hsep hfits'
  refine ⟨h2.mergeNext node, ?_, hlisted, ?_⟩
  · rw [insertFreeBlock, if_neg (by simp only [sizeofFreeBlock]; omega)]
    grind [Ended.returned_bind]
  · refine (hwritten.mono fun i hi => Or.inl hi).trans ((hrelinks.trans hrelinks').mono fun i hi => ?_)
    exact hi.imp_right fun hfront => covers_append.mpr (Or.inl hfront)

end Heap

end Wirth.Kernel.Mm

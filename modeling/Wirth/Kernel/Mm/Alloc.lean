import Wirth.Kernel.Mm.FreeList

namespace Wirth.Kernel.Mm

open Wirth.Lib

def headroom (alignment : Nat) : Nat := max sizeofHeapHeader alignment

theorem dvd_headroom (k : Nat) : 2 ^ k ∣ headroom (2 ^ k) := by
  by_cases hk : k ≤ 4
  · have hle : 2 ^ k ≤ sizeofHeapHeader := Nat.pow_le_pow_right (by decide) hk
    rw [headroom, max_eq_left hle]
    exact Nat.pow_dvd_pow 2 hk
  · have hle : sizeofHeapHeader ≤ 2 ^ k :=
      le_trans (b := 2 ^ 4) (by decide) (Nat.pow_le_pow_right (by decide) (by omega))
    rw [headroom, max_eq_right hle]

theorem roundUp_eq {value k t : Nat} (hk : k ≤ 32) (h : value + 2 ^ k ≤ 2 ^ 32) (hdvd : 2 ^ k ∣ t)
    (hle : value ≤ t) (hlt : t < value + 2 ^ k) : roundUp value (2 ^ k) = t := by
  obtain ⟨hdvd', hle', hlt'⟩ := roundUp_spec value hk h
  rcases Nat.le_total (roundUp value (2 ^ k)) t with h | h
  · have hz := Nat.eq_zero_of_dvd_of_lt (Nat.dvd_sub hdvd hdvd') (by omega)
    omega
  · have hz := Nat.eq_zero_of_dvd_of_lt (Nat.dvd_sub hdvd' hdvd) (by omega)
    omega

theorem alignUp_two_pow (value k : Nat) : alignUp value (2 ^ k) = roundUp value (2 ^ k) := by
  rw [alignUp, if_neg (Nat.two_pow_pos k).ne']

-- The header is aligned and leaves at least its own size in front of it; the payload follows
-- at the headroom. The corrections for sums that wrap are not taken.
theorem place_of_room (start : Nat) {k : Nat} (hk : k ≤ 32) (h : start + 32 + 2 * 2 ^ k ≤ 2 ^ 32) :
    (place start (2 ^ k)).payload = (place start (2 ^ k)).header + headroom (2 ^ k) ∧
      2 ^ k ∣ (place start (2 ^ k)).payload ∧ start + 16 ≤ (place start (2 ^ k)).header ∧
      (place start (2 ^ k)).header < start + 16 + 2 ^ k := by
  have hfirst : uint32 (start + sizeofHeapHeader) = start + 16 := uint32_eq_self (by
    simp only [sizeofHeapHeader]
    omega)
  obtain ⟨hdvd, hle, hlt⟩ := roundUp_spec (start + 16) hk (by omega)
  set header := roundUp (start + 16) (2 ^ k) with hheader
  have hsecond : uint32 (header + sizeofHeapHeader) = header + 16 := uint32_eq_self (by
    simp only [sizeofHeapHeader]
    omega)
  have hdvd' : 2 ^ k ∣ header + headroom (2 ^ k) := Nat.dvd_add hdvd (dvd_headroom k)
  have hpayload : roundUp (header + 16) (2 ^ k) = header + headroom (2 ^ k) := by
    refine roundUp_eq hk (by omega) hdvd' ?_ ?_ <;>
      simp only [headroom, sizeofHeapHeader] <;> omega
  have hroom : 16 ≤ headroom (2 ^ k) := le_max_left _ _
  have hplace : place start (2 ^ k) = ⟨header, header + headroom (2 ^ k)⟩ := by
    have hstart : ¬header < start := by omega
    simp only [place, alignUp_two_pow, hfirst, ← hheader, if_neg hstart, hsecond, hpayload]
    rw [if_neg (by omega)]
  rw [hplace]
  exact ⟨rfl, hdvd', hle, hlt⟩

theorem place_spec (start : Nat) {k : Nat} (hk : k ≤ 12) (h : start + 2 ^ 14 ≤ 2 ^ 32) :
    (place start (2 ^ k)).payload = (place start (2 ^ k)).header + headroom (2 ^ k) ∧
      2 ^ k ∣ (place start (2 ^ k)).payload ∧ start + 16 ≤ (place start (2 ^ k)).header ∧
      (place start (2 ^ k)).header < start + 16 + 2 ^ k := by
  have hpow : 2 ^ k ≤ 2 ^ 12 := Nat.pow_le_pow_right (by decide) hk
  exact place_of_room start (by omega) (by omega)

structure Fit.Divides (f : Fit) (start stop size alignment : Nat) : Prop where
  payload_eq : f.payload = f.header + headroom alignment
  aligned : alignment ∣ f.payload
  before : start + 16 ≤ f.header
  prefix_eq : f.prefixSize = f.header - start
  room : f.payload + size ≤ f.allocEnd
  suffix_eq : f.allocEnd + f.suffixSize = stop
  suffix_least : f.suffixSize = 0 ∨ 8 ≤ f.suffixSize

theorem fit_divides {start stop size k : Nat} {f : Fit} (hk : k ≤ 12)
    (hfits : start + size + 2 ^ 14 ≤ 2 ^ 32) (h : fit start stop size (2 ^ k) = some f) :
    f.Divides start stop size (2 ^ k) := by
  have hpow : 2 ^ k ≤ 2 ^ 12 := Nat.pow_le_pow_right (by decide) hk
  obtain ⟨hpayload, haligned, hbefore, hafter⟩ := place_spec start hk (by omega)
  set p := place start (2 ^ k) with hp
  have hroom : headroom (2 ^ k) ≤ 2 ^ 12 := by
    simp only [headroom, sizeofHeapHeader]
    omega
  have hend : uint32 (p.payload + size) = p.payload + size := uint32_eq_self (by omega)
  simp only [fit, ← hp, hend] at h
  rw [if_neg (by omega)] at h
  by_cases hstop : stop < p.payload + size
  · rw [if_pos hstop] at h
    cases h
  rw [if_neg hstop, if_neg (by simp only [sizeofFreeBlock]; omega), Option.some.injEq] at h
  by_cases hsmall : 0 < stop - (p.payload + size) ∧ stop - (p.payload + size) < sizeofFreeBlock
  · rw [Fit.trimmed, if_pos hsmall] at h
    subst h
    exact ⟨hpayload, haligned, hbefore, rfl, Nat.not_lt.mp hstop, rfl, Or.inl rfl⟩
  · rw [Fit.trimmed, if_neg hsmall] at h
    subst h
    simp only [sizeofFreeBlock] at hsmall
    refine ⟨hpayload, haligned, hbefore, rfl, le_refl _, ?_, ?_⟩
    · simp only
      omega
    · simp only
      omega

variable {m : Memory} {p size alignment left : Nat} {b : Block} {blocks front back : List Block}

theorem firstFit_spec (size alignment : Nat) (h : Segment m p blocks 0) (hleft : blocks.length < left)
    (hfits : ∀ c ∈ blocks, c.stop < 2 ^ 32) :
    firstFit m size alignment left p = .returned none ∨
      ∃ front b back f, blocks = front ++ b :: back ∧ fit b.start b.stop size alignment = some f ∧
        firstFit m size alignment left p = .returned (some (b.start, f)) := by
  induction blocks generalizing p left with
  | nil =>
    obtain ⟨left, rfl⟩ := Nat.exists_eq_succ_of_ne_zero (Nat.ne_of_gt hleft)
    exact Or.inl (if_pos h)
  | cons c rest ih =>
    obtain ⟨left, rfl⟩ := Nat.exists_eq_succ_of_ne_zero (Nat.ne_of_gt (Nat.zero_lt_of_lt hleft))
    obtain ⟨rfl, hne, hsize, hrest⟩ := h
    have hstop : uint32 (c.start + sizeOf m c.start) = c.stop := by
      rw [hsize]
      exact uint32_eq_self (hfits c (by simp))
    rw [firstFit, if_neg hne, hstop]
    cases hfit : fit c.start c.stop size alignment with
    | some f => exact Or.inr ⟨[], c, rest, f, rfl, hfit, rfl⟩
    | none =>
      rcases ih hrest (by simpa using hleft) fun d hd => hfits d (List.mem_cons_of_mem _ hd) with
        hnone | ⟨front, b, back, f, rfl, hf, hfound⟩
      · exact Or.inl hnone
      grind

structure HeaderAt (m : Memory) (b : Block) (size : Nat) : Prop where
  start : m.read32 b.start = b.start
  block : m.read32 (b.start + 4) = b.size
  payload : m.read32 (b.start + 8) = size
  magic : m.read32 (b.start + 12) = kHeapHeaderMagic

theorem HeaderAt.frame {m' : Memory} (h : HeaderAt m b size)
    (hsame : m.Same m' b.start (b.start + 16)) : HeaderAt m' b size := by
  refine ⟨?_, ?_, ?_, ?_⟩
  · rw [(hsame.mono (by omega) (by omega)).read32, h.start]
  · rw [(hsame.mono (by omega) (by omega)).read32, h.block]
  · rw [(hsame.mono (by omega) (by omega)).read32, h.payload]
  · rw [(hsame.mono (by omega) (by omega)).read32, h.magic]

namespace Heap

variable {P : Type} {h h' : Heap P} {allocEnd : Nat}

structure Tidy (h : Heap P) (blocks : List Block) : Prop where
  listed : h.Listed blocks
  separated : Separated blocks
  roomy : Roomy 8 blocks
  within : Within 1 (2 ^ 32 - 1) blocks

theorem Tidy.fits (ht : h.Tidy blocks) : ∀ c ∈ blocks, c.stop < 2 ^ 32 := by
  intro c hc
  have hstop := (ht.within c hc).2
  omega

theorem Tidy.length_lt (ht : h.Tidy blocks) : blocks.length < rounds := by
  have hlength := ht.separated.ascending.length_le ht.roomy ht.within (by decide)
  simp only [rounds]
  omega

theorem Tidy.frame (ht : h.Tidy blocks) (hfree : h'.freeList = h.freeList)
    (hsame : ∀ i, Covers blocks i → h'.memory i = h.memory i) : h'.Tidy blocks :=
  ⟨ht.listed.frame ht.roomy hfree hsame, ht.separated, ht.roomy, ht.within⟩

theorem roomy_one (h : Roomy 8 blocks) : Roomy 1 blocks := fun c hc => le_trans (by decide) (h c hc)

theorem insertFreeBlock_tidy (ht : h.Tidy blocks) (hpos : 0 < b.start) (hstop : b.stop < 2 ^ 32)
    (hsize : 8 ≤ b.size) (hout : ∀ x, b.Holds x → ¬Covers blocks x) :
    ∃ h', h.insertFreeBlock b.start b.size = .returned h' ∧ h'.Tidy (insertBlock b blocks) ∧
      Relinks (fun x => b.Holds x ∨ Covers blocks x) h h' := by
  have hapart : ∀ c ∈ blocks, b.Apart c := by
    intro c hc
    have hc8 := ht.roomy c hc
    exact Block.apart_of_disjoint (by omega) (by omega) fun x hb hx => hout x hb ⟨c, hc, hx⟩
  have hfits : ∀ c ∈ b :: blocks, c.stop < 2 ^ 32 := by
    intro c hc
    rcases List.mem_cons.mp hc with rfl | hc
    · exact hstop
    · exact ht.fits c hc
  obtain ⟨h', hret, hlisted, hrelinks⟩ :=
    insertFreeBlock_spec ht.listed ht.separated ht.roomy hpos.ne' hsize hapart hfits
  refine ⟨h', hret, ⟨hlisted, ?_, insertBlock_roomy hsize ht.roomy, ?_⟩, hrelinks⟩
  · exact insertBlock_separated ht.separated (roomy_one ht.roomy) (by omega) hapart
  · refine within_of_covers (roomy_one (insertBlock_roomy hsize ht.roomy)) fun x hx => ?_
    rcases (insertBlock_covers b blocks x).mp hx with hx | hx
    · simp only [Block.Holds] at hx
      omega
    · exact ht.within.covers hx

theorem giveBack_tidy (ht : h.Tidy blocks) (hpos : 0 < b.start) (hstop : b.stop < 2 ^ 32)
    (hsize : b.size = 0 ∨ 8 ≤ b.size) (hout : ∀ x, b.Holds x → ¬Covers blocks x) :
    ∃ h' blocks', h.giveBack b.start b.size = .returned h' ∧ h'.Tidy blocks' ∧
      (∀ x, Covers blocks' x ↔ b.Holds x ∨ Covers blocks x) ∧
      Relinks (fun x => b.Holds x ∨ Covers blocks x) h h' := by
  rcases hsize with hzero | hsize
  · refine ⟨h, blocks, if_neg (by rw [hzero]; decide), ht, fun x => ?_, Relinks.refl _ _⟩
    grind [Block.Holds, Block.stop]
  · obtain ⟨h', hret, htidy, hrelinks⟩ := insertFreeBlock_tidy ht hpos hstop hsize hout
    refine ⟨h', insertBlock b blocks, ?_, htidy, insertBlock_covers b blocks, hrelinks⟩
    exact (if_pos hsize).trans hret

theorem writeHeader_headerAt {header : Nat} (hle : header ≤ allocEnd) (hend : allocEnd < 2 ^ 32)
    (hsize : size < 2 ^ 32) :
    HeaderAt (h.writeHeader header allocEnd size).memory ⟨header, allocEnd - header⟩ size := by
  have hblock : uint32 (allocEnd + 2 ^ 32 - header) = allocEnd - header := by
    rw [uint32]
    omega
  simp only [writeHeader, hblock]
  constructor <;> dsimp only
  iterate 3 grind [Memory.read32_write32_of_apart, Memory.read32_write32]
  · rw [Memory.read32_write32 _ _ (by decide)]

theorem writeHeader_same {header i : Nat} (hi : ¬(header ≤ i ∧ i < header + 16)) :
    (h.writeHeader header allocEnd size).memory i = h.memory i := by
  simp only [writeHeader, Memory.write32]
  grind

-- What an allocation leaves: the new block lies in `area`, out of the free list, and nothing
-- outside of `area` was written.
structure Allocated (area : Nat → Prop) (h h' : Heap P) (blocks' : List Block) (b : Block)
    (payload size alignment : Nat) : Prop where
  tidy : h'.Tidy blocks'
  header : HeaderAt h'.memory b size
  payload_eq : payload = b.start + headroom alignment
  aligned : alignment ∣ payload
  fits : payload + size ≤ b.stop
  inside : ∀ x, b.Holds x → area x
  out : ∀ x, b.Holds x → ¬Covers blocks' x
  same : ∀ x, ¬area x → h'.memory x = h.memory x

section Allocated

variable {area area' : Nat → Prop} {payload : Nat}

theorem Allocated.mono (ha : Allocated area h h' blocks b payload size alignment)
    (hle : ∀ x, area x → area' x) : Allocated area' h h' blocks b payload size alignment :=
  { ha with
    inside := fun x hx => hle x (ha.inside x hx)
    same := fun x hx => ha.same x fun hin => hx (hle x hin) }

theorem Allocated.payload_pos (ha : Allocated area h h' blocks b payload size alignment) :
    0 < payload := by
  have hheadroom : 16 ≤ headroom alignment := le_max_left _ _
  have heq := ha.payload_eq
  omega

theorem Allocated.start_lt_stop (ha : Allocated area h h' blocks b payload size alignment) :
    b.start < b.stop := by
  have hheadroom : 16 ≤ headroom alignment := le_max_left _ _
  have heq := ha.payload_eq
  have hfits := ha.fits
  omega

end Allocated

theorem unlink_tidy (ht : h.Tidy (front ++ b :: back)) : (h.unlink 0 b.start).Tidy back := by
  obtain ⟨_, _, rfl, _, _, hlisted⟩ := segment_append.mp ht.listed
  exact ⟨hlisted, (List.pairwise_cons.mp (List.pairwise_append.mp ht.separated).2.1).2,
    fun c hc => ht.roomy c (by simp [hc]), fun c hc => ht.within c (by simp [hc])⟩

theorem Tidy.beyond (ht : h.Tidy (front ++ b :: back)) {x : Nat} (hx : Covers back x) :
    b.stop ≤ x := by
  obtain ⟨c, hc, hle, _⟩ := hx
  have hlt := (List.pairwise_cons.mp (List.pairwise_append.mp ht.separated).2.1).1 c hc
  omega

theorem takeBlock_spec {f : Fit} (ht : h.Tidy (front ++ b :: back))
    (hf : f.Divides b.start b.stop size alignment) :
    ∃ h' blocks', h.takeBlock b.start f size = .returned (f.payload, h') ∧
      (∀ x, Covers blocks' x → Covers (front ++ b :: back) x) ∧
      Allocated (Covers (front ++ b :: back)) h h' blocks' ⟨f.header, f.allocEnd - f.header⟩
        f.payload size alignment ∧
      h' = { h with
        memory := h'.memory, freeList := h'.freeList
        activeBytes := uint32 (h.activeBytes + size) } := by
  obtain ⟨hpayload, haligned, hbefore, hprefix, hroom, hsuffix, hleast⟩ := hf
  have hheadroom : 16 ≤ headroom alignment := le_max_left _ _
  have hbstop := ht.fits b (by simp)
  have hbpos := (ht.within b (by simp)).1
  obtain ⟨pre, hpre⟩ : ∃ pre : Block, pre = ⟨b.start, f.prefixSize⟩ := ⟨_, rfl⟩
  obtain ⟨suf, hsuf⟩ : ∃ suf : Block, suf = ⟨f.allocEnd, f.suffixSize⟩ := ⟨_, rfl⟩
  have hprestop : pre.stop = f.header := by
    simp only [hpre, Block.stop]
    omega
  have hsufstop : suf.stop = b.stop := by
    rw [← hsuffix, hsuf, Block.stop]
  have hinpre : ∀ x, pre.Holds x ↔ b.start ≤ x ∧ x < f.header := by
    intro x
    rw [Block.Holds, hprestop, hpre]
  have hinsuf : ∀ x, suf.Holds x ↔ f.allocEnd ≤ x ∧ x < b.stop := by
    intro x
    rw [Block.Holds, hsufstop, hsuf]
  obtain ⟨h1, l1, hret1, htidy1, hcovers1, hrelinks1⟩ := giveBack_tidy (b := pre) (unlink_tidy ht)
    (by rw [hpre]; exact hbpos) (by omega) (Or.inr (by simp only [hpre]; omega)) (by
      intro x hx hcx
      have hle := ht.beyond hcx
      rw [hinpre] at hx
      omega)
  obtain ⟨h2, l2, hret2, htidy2, hcovers2, hrelinks2⟩ := giveBack_tidy (b := suf) htidy1
    (by simp only [hsuf]; omega) (by omega) (by rw [hsuf]; exact hleast) (by
      intro x hx hcx
      rw [hinsuf] at hx
      rcases (hcovers1 x).mp hcx with hin | hcx
      · rw [hinpre] at hin
        omega
      · have hle := ht.beyond hcx
        omega)
  -- what is free now: both rests and the blocks behind
  have hcovers : ∀ x, Covers l2 x → b.start ≤ x ∧ x < f.header ∨ f.allocEnd ≤ x ∧ x < b.stop ∨
      Covers back x := by
    intro x hx
    rw [hcovers2, hcovers1, hinpre, hinsuf] at hx
    tauto
  have hold : ∀ x, b.start ≤ x ∧ x < b.stop ∨ Covers back x → Covers (front ++ b :: back) x := by
    intro x hx
    exact covers_append.mpr (Or.inr (covers_cons.mpr hx))
  have hkept : ∀ x, ¬Covers (front ++ b :: back) x → h2.memory x = h.memory x := by
    intro x hx
    have hnot : ¬(b.start ≤ x ∧ x < b.stop ∨ Covers back x) := fun hin => hx (hold x hin)
    have hnot1 : ¬(pre.Holds x ∨ Covers back x) := by
      rw [hinpre]
      rintro (hin | hin)
      · exact hnot (Or.inl (by omega))
      · exact hnot (Or.inr hin)
    have hnot2 : ¬(suf.Holds x ∨ Covers l1 x) := by
      rw [hcovers1, hinsuf]
      rintro (hin | hin)
      · exact hnot (Or.inl (by omega))
      · exact hnot1 hin
    rw [hrelinks2.same x hnot2, hrelinks1.same x hnot1]
    rfl
  have hout : ∀ x, f.header ≤ x → x < f.allocEnd → ¬Covers l2 x := by
    intro x h1 h2 hx
    rcases hcovers x hx with hin | hin | hin
    · omega
    · omega
    · have hle := ht.beyond hin
      omega
  have hnew : ∀ x, Block.Holds ⟨f.header, f.allocEnd - f.header⟩ x → f.header ≤ x ∧ x < f.allocEnd := by
    intro x hx
    simp only [Block.Holds, Block.stop] at hx
    omega
  refine ⟨h2.writeHeader f.header f.allocEnd size, l2, ?_, ?_, ⟨?_, ?_, hpayload, haligned, ?_, ?_, ?_, ?_⟩, ?_⟩
  · grind [takeBlock, Ended.returned_bind]
  · grind
  · exact htidy2.frame rfl fun i hi => writeHeader_same fun hin => hout i hin.1 (by omega) hi
  · grind [writeHeader_headerAt]
  · simp only [Block.stop]
    omega
  · grind
  · grind
  · grind [writeHeader_same]
  · rw [hrelinks2.rest, hrelinks1.rest]
    rfl

end Heap

end Wirth.Kernel.Mm

import Mathlib.Algebra.GroupWithZero.Nat
import Mathlib.Order.Interval.Finset.Nat

namespace Wirth.Lib

structure Block where
  start : Nat
  size : Nat
  deriving DecidableEq, Repr

namespace Block

def stop (b : Block) : Nat := b.start + b.size

def Holds (b : Block) (x : Nat) : Prop := b.start ≤ x ∧ x < b.stop

def Apart (b c : Block) : Prop := b.stop ≤ c.start ∨ c.stop ≤ b.start

variable {b c : Block}

theorem Apart.symm (h : b.Apart c) : c.Apart b := Or.symm h

theorem Apart.not_holds {x : Nat} (h : b.Apart c) (hb : b.Holds x) : ¬c.Holds x := by
  rintro ⟨h1, h2⟩
  obtain ⟨h3, h4⟩ := hb
  rcases h with h | h <;> omega

theorem apart_of_disjoint (hb : 0 < b.size) (hc : 0 < c.size)
    (h : ∀ x, b.Holds x → ¬c.Holds x) : b.Apart c := by
  by_contra hne
  simp only [Apart, stop, not_or, not_le] at hne
  simp only [Holds, stop] at h
  exact h (max b.start c.start) ⟨by omega, by omega⟩ ⟨by omega, by omega⟩

def join (b c : Block) : Block := ⟨b.start, b.size + c.size⟩

@[simp] theorem join_start (b c : Block) : (b.join c).start = b.start := rfl

@[simp] theorem join_size (b c : Block) : (b.join c).size = b.size + c.size := rfl

theorem join_stop (h : b.stop = c.start) : (b.join c).stop = c.stop := by
  simp only [join, stop] at h ⊢
  omega

theorem join_holds (h : b.stop = c.start) (x : Nat) :
    (b.join c).Holds x ↔ b.Holds x ∨ c.Holds x := by
  grind [Holds, join, stop]

end Block

def Covers (l : List Block) (x : Nat) : Prop := ∃ b ∈ l, b.Holds x

@[simp] theorem not_covers_nil (x : Nat) : ¬Covers [] x := by
  simp [Covers]

@[simp] theorem covers_cons {b : Block} {l : List Block} {x : Nat} :
    Covers (b :: l) x ↔ b.Holds x ∨ Covers l x := by
  simp [Covers]

@[simp] theorem covers_append {l l' : List Block} {x : Nat} :
    Covers (l ++ l') x ↔ Covers l x ∨ Covers l' x := by
  simp [Covers, or_and_right, exists_or]

def Ascending (l : List Block) : Prop := l.Pairwise fun b c => b.stop ≤ c.start

def Separated (l : List Block) : Prop := l.Pairwise fun b c => b.stop < c.start

variable {least : Nat} {b : Block} {lo : Nat} {l : List Block} {c : Block} {hi : Nat}
  {front back : List Block}

theorem Separated.ascending (h : Separated l) : Ascending l :=
  h.imp fun hlt => Nat.le_of_lt hlt

def Roomy (least : Nat) (l : List Block) : Prop := ∀ b ∈ l, least ≤ b.size

def Within (lo hi : Nat) (l : List Block) : Prop := ∀ b ∈ l, lo ≤ b.start ∧ b.stop ≤ hi

theorem Within.covers {l : List Block} (h : Within lo hi l) {x : Nat}
    (hx : Covers l x) : lo ≤ x ∧ x < hi := by
  obtain ⟨b, hb, h1, h2⟩ := hx
  obtain ⟨h3, h4⟩ := h b hb
  omega

theorem exists_finset_of_apart (hapart : l.Pairwise Block.Apart) :
    ∃ f : Finset Nat, f.card = (l.map Block.size).sum ∧ ∀ x, x ∈ f ↔ Covers l x := by
  induction l with
  | nil => exact ⟨∅, rfl, fun x => by simp⟩
  | cons b rest ih =>
    obtain ⟨hhead, hrest⟩ := List.pairwise_cons.mp hapart
    obtain ⟨f, hcard, hmem⟩ := ih hrest
    have hdisjoint : Disjoint (Finset.Ico b.start b.stop) f := by
      rw [Finset.disjoint_left]
      intro x hx hxf
      obtain ⟨c, hc, hcx⟩ := (hmem x).mp hxf
      exact (hhead c hc).not_holds (Finset.mem_Ico.mp hx) hcx
    refine ⟨Finset.Ico b.start b.stop ∪ f, ?_, ?_⟩
    · rw [Finset.card_union_of_disjoint hdisjoint, Nat.card_Ico, hcard, List.map_cons, List.sum_cons,
        Block.stop, Nat.add_sub_cancel_left]
    · intro x
      rw [Finset.mem_union, Finset.mem_Ico, hmem, covers_cons]
      rfl

theorem Within.sum_size_le {l : List Block} (h : Within lo hi l)
    (hapart : l.Pairwise Block.Apart) : (l.map Block.size).sum ≤ hi - lo := by
  obtain ⟨f, hcard, hmem⟩ := exists_finset_of_apart hapart
  have hsub : f ⊆ Finset.Ico lo hi := by
    intro x hx
    exact Finset.mem_Ico.mpr (h.covers ((hmem x).mp hx))
  have hle := Finset.card_le_card hsub
  rw [hcard, Nat.card_Ico] at hle
  exact hle

theorem Roomy.le_sum (h : Roomy least l) :
    least * l.length ≤ (l.map Block.size).sum := by
  induction l with
  | nil => simp
  | cons b rest ih =>
    have hb := h b (by simp)
    have hrest := ih fun c hc => h c (List.mem_cons_of_mem _ hc)
    rw [List.length_cons, Nat.mul_succ, List.map_cons, List.sum_cons]
    omega

theorem length_le_of_apart {start page count : Nat} (hpage : 0 < page)
    (hapart : l.Pairwise Block.Apart) (hin : Within start (start + page * count) l)
    (hsize : Roomy page l) : l.length ≤ count := by
  have hsum := hin.sum_size_le hapart
  rw [Nat.add_sub_cancel_left] at hsum
  exact Nat.le_of_mul_le_mul_left (hsize.le_sum.trans hsum) hpage

theorem within_of_covers {l : List Block} (hpos : Roomy 1 l)
    (h : ∀ x, Covers l x → lo ≤ x ∧ x < hi) : Within lo hi l := by
  intro b hb
  have hsize := hpos b hb
  have hfirst := h b.start ⟨b, hb, le_refl _, by simp only [Block.stop]; omega⟩
  have hlast := h (b.stop - 1) ⟨b, hb, by simp only [Block.stop]; omega, by simp only [Block.stop]; omega⟩
  omega

theorem Ascending.length_le {l : List Block} (h : Ascending l)
    (hroom : Roomy least l) (hin : Within lo hi l) (hlo : lo ≤ hi) :
    lo + least * l.length ≤ hi := by
  have hsum := hin.sum_size_le (h.imp Or.inl)
  have hleast := hroom.le_sum
  omega

theorem Ascending.split (h : Ascending l) (x : Nat) :
    ∃ front back, l = front ++ back ∧ (∀ c ∈ front, c.start < x) ∧ ∀ c ∈ back, x ≤ c.start := by
  induction l with
  | nil => exact ⟨[], [], rfl, by simp, by simp⟩
  | cons b rest ih =>
    obtain ⟨hhead, hrest⟩ := List.pairwise_cons.mp h
    by_cases hb : b.start < x
    · obtain ⟨front, back, rfl, hfront, hback⟩ := ih hrest
      grind
    · refine ⟨[], b :: rest, rfl, by simp, ?_⟩
      grind [Block.stop]

-- A block that is apart from all fits between those that start below it and the others.
theorem Ascending.between (h : Ascending (front ++ back))
    (hroom : Roomy 1 (front ++ back)) (hb : 0 < b.size) (hapart : ∀ c ∈ front ++ back, b.Apart c)
    (hfront : ∀ c ∈ front, c.start < b.start) (hback : ∀ c ∈ back, b.start ≤ c.start) :
    Ascending (front ++ b :: back) := by
  obtain ⟨h1, h2, h3⟩ := List.pairwise_append.mp h
  have hbefore : ∀ c ∈ front, c.stop ≤ b.start := by
    intro c hc
    have hlt := hfront c hc
    rcases hapart c (by simp [hc]) with hle | hle
    · simp only [Block.stop] at hle
      omega
    · exact hle
  have hafter : ∀ c ∈ back, b.stop ≤ c.start := by
    intro c hc
    have hle := hback c hc
    have hsize := hroom c (by simp [hc])
    rcases hapart c (by simp [hc]) with hle' | hle'
    · exact hle'
    · simp only [Block.stop] at hle'
      omega
  refine List.pairwise_append.mpr ⟨h1, List.pairwise_cons.mpr ⟨hafter, h2⟩, ?_⟩
  grind

-- Two blocks that touch may be replaced by one.

theorem Ascending.joined
    (h : Ascending (front ++ b :: c :: back)) (htouch : b.stop = c.start) :
    Ascending (front ++ b.join c :: back) := by
  obtain ⟨h1, h2, h3⟩ := List.pairwise_append.mp h
  obtain ⟨_, h4⟩ := List.pairwise_cons.mp h2
  obtain ⟨h5, h6⟩ := List.pairwise_cons.mp h4
  refine List.pairwise_append.mpr ⟨h1, List.pairwise_cons.mpr ⟨?_, h6⟩, ?_⟩
  · rw [Block.join_stop htouch]
    exact h5
  · intro d hd e he
    rcases List.mem_cons.mp he with rfl | he
    · exact h3 d hd b (by simp)
    · exact h3 d hd e (by simp [he])

theorem Roomy.joined
    (h : Roomy least (front ++ b :: c :: back)) : Roomy least (front ++ b.join c :: back) := by
  intro d hd
  rcases List.mem_append.mp hd with hd | hd
  · exact h d (by simp [hd])
  rcases List.mem_cons.mp hd with rfl | hd
  · exact Nat.le_add_right_of_le (h b (by simp))
  · exact h d (by simp [hd])

-- Put a block in front of the blocks behind it, as one with the next where they touch.
def joinNext (b : Block) : List Block → List Block
  | [] => [b]
  | c :: rest => if b.stop = c.start then b.join c :: rest else b :: c :: rest

def insertBlock (b : Block) : List Block → List Block
  | [] => [b]
  | p :: rest =>
      if b.start ≤ p.start then joinNext b (p :: rest)
      else if p.stop = b.start then joinNext (p.join b) rest
      else p :: insertBlock b rest

theorem joinNext_covers (b : Block) (l : List Block) (x : Nat) :
    Covers (joinNext b l) x ↔ b.Holds x ∨ Covers l x := by
  cases l with
  | nil => simp [joinNext]
  | cons c rest =>
    by_cases h : b.stop = c.start
    · simp only [joinNext, if_pos h, covers_cons, Block.join_holds h, or_assoc]
    · simp only [joinNext, if_neg h, covers_cons]

theorem insertBlock_covers (b : Block) (l : List Block) (x : Nat) :
    Covers (insertBlock b l) x ↔ b.Holds x ∨ Covers l x := by
  induction l with
  | nil => simp [insertBlock]
  | cons p rest ih =>
    by_cases hle : b.start ≤ p.start
    · simp only [insertBlock, if_pos hle, joinNext_covers]
    by_cases htouch : p.stop = b.start
    · simp only [insertBlock, if_neg hle, if_pos htouch, joinNext_covers, covers_cons,
        Block.join_holds htouch]
      tauto
    · simp only [insertBlock, if_neg hle, if_neg htouch, covers_cons, ih]
      tauto

theorem mem_joinNext {l : List Block} (h : c ∈ joinNext b l) :
    ∃ d ∈ b :: l, c.start = d.start ∧ d.size ≤ c.size := by
  cases l with
  | nil => exact ⟨c, h, rfl, le_refl _⟩
  | cons p rest =>
    simp only [joinNext] at h
    split_ifs at h
    · rcases List.mem_cons.mp h with rfl | h
      · exact ⟨b, by simp, rfl, by simp⟩
      · exact ⟨c, by simp [h], rfl, le_refl _⟩
    · exact ⟨c, h, rfl, le_refl _⟩

theorem mem_insertBlock {l : List Block} (h : c ∈ insertBlock b l) :
    ∃ d ∈ b :: l, c.start = d.start ∧ d.size ≤ c.size := by
  induction l with
  | nil => exact ⟨c, h, rfl, le_refl _⟩
  | cons p rest ih =>
    simp only [insertBlock] at h
    split_ifs at h
    · exact mem_joinNext h
    · obtain ⟨d, hd, hstart, hsize⟩ := mem_joinNext h
      rcases List.mem_cons.mp hd with rfl | hd
      · exact ⟨p, by simp, hstart, le_trans (by simp) hsize⟩
      · exact ⟨d, by simp [hd], hstart, hsize⟩
    · rcases List.mem_cons.mp h with rfl | h
      · exact ⟨c, by simp, rfl, le_refl _⟩
      grind

theorem insertBlock_roomy (hb : least ≤ b.size)
    (h : Roomy least l) : Roomy least (insertBlock b l) := by
  intro c hc
  obtain ⟨d, hd, _, hsize⟩ := mem_insertBlock hc
  rcases List.mem_cons.mp hd with rfl | hd
  · exact le_trans hb hsize
  · exact le_trans (h d hd) hsize

theorem joinNext_separated (hl : Separated l) (hroom : Roomy 1 l)
    (h : ∀ c ∈ l, b.stop ≤ c.start) : Separated (joinNext b l) := by
  cases l with
  | nil => exact List.pairwise_singleton _ _
  | cons c rest =>
    obtain ⟨hhead, hrest⟩ := List.pairwise_cons.mp hl
    by_cases htouch : b.stop = c.start
    · rw [joinNext, if_pos htouch]
      refine List.pairwise_cons.mpr ⟨fun d hd => ?_, hrest⟩
      grind [Block.join_stop]
    · rw [joinNext, if_neg htouch]
      refine List.pairwise_cons.mpr ⟨?_, hl⟩
      grind [Block.stop]

theorem insertBlock_separated (hl : Separated l) (hroom : Roomy 1 l)
    (hb : 0 < b.size) (hapart : ∀ c ∈ l, b.Apart c) : Separated (insertBlock b l) := by
  have hafter : ∀ c ∈ l, b.start ≤ c.start → b.stop ≤ c.start := by
    intro c hc hle
    have hsize := hroom c hc
    rcases hapart c hc with h | h
    · exact h
    · simp only [Block.stop] at h
      omega
  induction l with
  | nil => exact List.pairwise_singleton _ _
  | cons p rest ih =>
    obtain ⟨hhead, hrest⟩ := List.pairwise_cons.mp hl
    have htail : Roomy 1 rest := fun c hc => hroom c (List.mem_cons_of_mem _ hc)
    by_cases hle : b.start ≤ p.start
    · rw [insertBlock, if_pos hle]
      grind [joinNext_separated, Block.stop]
    by_cases htouch : p.stop = b.start
    · rw [insertBlock, if_neg hle, if_pos htouch]
      refine joinNext_separated hrest htail fun c hc => ?_
      grind [Block.join_stop]
    · rw [insertBlock, if_neg hle, if_neg htouch]
      refine List.pairwise_cons.mpr ⟨fun c hc => ?_, ih hrest htail
        (fun c hc => hapart c (List.mem_cons_of_mem _ hc))
        (fun c hc => hafter c (List.mem_cons_of_mem _ hc))⟩
      obtain ⟨d, hd, hstart, _⟩ := mem_insertBlock hc
      rw [hstart]
      rcases List.mem_cons.mp hd with rfl | hd
      · rcases hapart p (by simp) with h | h
        · simp only [Block.stop] at h
          omega
        · omega
      · exact hhead d hd

-- Where the new block goes, seen from the blocks in front of it.

theorem insertBlock_append
    (h : ∀ p ∈ front, p.start < b.start ∧ p.stop ≠ b.start) :
    insertBlock b (front ++ back) = front ++ insertBlock b back := by
  induction front with
  | nil => rfl
  | cons p rest ih =>
    obtain ⟨hlt, hne⟩ := h p (by simp)
    rw [List.cons_append, insertBlock, if_neg hlt.not_ge, if_neg hne,
      ih fun q hq => h q (List.mem_cons_of_mem _ hq)]
    rfl

theorem insertBlock_touching {b p : Block} {back : List Block} (hlt : p.start < b.start)
    (h : p.stop = b.start) : insertBlock b (p :: back) = joinNext (p.join b) back := by
  rw [insertBlock, if_neg hlt.not_ge, if_pos h]

theorem insertBlock_front (h : ∀ c ∈ back, b.start ≤ c.start) :
    insertBlock b back = joinNext b back := by
  cases back with
  | nil => rfl
  | cons c rest => rw [insertBlock, if_pos (h c (by simp))]

end Wirth.Lib

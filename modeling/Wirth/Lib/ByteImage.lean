import Wirth.Lib.Device
import Mathlib.Data.List.GetD

namespace Wirth.Lib

-- A file that is filled by seeking and writing. What was never written reads as zero.
abbrev ByteImage := Nat → UInt8

structure Region where
  start : Nat
  bytes : List UInt8
  deriving DecidableEq

def Region.stop (r : Region) : Nat := r.start + r.bytes.length

def Region.Apart (r s : Region) : Prop := r.stop ≤ s.start ∨ s.stop ≤ r.start

def InOrder : Nat → List Region → Nat → Prop
  | lo, [], hi => lo ≤ hi
  | lo, r :: rs, hi => lo ≤ r.start ∧ InOrder r.stop rs hi

namespace ByteImage

def zero : ByteImage := fun _ => 0

def write (m : ByteImage) (r : Region) : ByteImage := fun i =>
  if r.start ≤ i ∧ i < r.stop then r.bytes.getD (i - r.start) 0 else m i

def writes (m : ByteImage) (rs : List Region) : ByteImage := rs.foldl write m

def bytes (m : ByteImage) (start count : Nat) : List UInt8 :=
  (List.range count).map fun i => m (start + i)

def suffix (m : ByteImage) (base : Nat) : ByteImage := fun i => m (base + i)

def disk (m : ByteImage) : Disk := fun lba =>
  ⟨m.bytes (512 * lba) 512, by rw [bytes, List.length_map, List.length_range]⟩

end ByteImage

section InOrder

variable {rs ss : List Region} {r : Region} {lo mid hi : Nat}

theorem InOrder.le (h : InOrder lo rs hi) : lo ≤ hi := by
  induction rs generalizing lo with
  | nil => exact h
  | cons r rs ih =>
    have hrest := ih h.2
    have hfirst : r.start ≤ r.stop := Nat.le_add_right _ _
    have := h.1
    omega

theorem InOrder.append (h : InOrder lo rs mid) (hs : InOrder mid ss hi) :
    InOrder lo (rs ++ ss) hi := by
  induction rs generalizing lo with
  | nil =>
    cases ss with
    | nil => exact Nat.le_trans h hs
    | cons s ss => exact ⟨Nat.le_trans h hs.1, hs.2⟩
  | cons r rs ih => exact ⟨h.1, ih h.2⟩

theorem InOrder.mono {lo' hi' : Nat} (h : InOrder lo rs hi) (hlo : lo' ≤ lo) (hhi : hi ≤ hi') :
    InOrder lo' rs hi' := by
  induction rs generalizing lo lo' with
  | nil => exact Nat.le_trans hlo (Nat.le_trans h hhi)
  | cons r rs ih => exact ⟨Nat.le_trans hlo h.1, ih h.2 (Nat.le_refl _)⟩

theorem InOrder.bounds (h : InOrder lo rs hi) (hr : r ∈ rs) : lo ≤ r.start ∧ r.stop ≤ hi := by
  induction rs generalizing lo with
  | nil => cases hr
  | cons s rs ih =>
    rcases List.mem_cons.mp hr with rfl | hr
    · exact ⟨h.1, h.2.le⟩
    · have hstop : s.start ≤ s.stop := Nat.le_add_right _ _
      have := ih h.2 hr
      have := h.1
      omega

theorem InOrder.pairwise (h : InOrder lo rs hi) : rs.Pairwise Region.Apart := by
  induction rs generalizing lo with
  | nil => exact List.Pairwise.nil
  | cons r rs ih =>
    refine List.Pairwise.cons (fun s hs => Or.inl ?_) (ih h.2)
    exact (h.2.bounds hs).1

theorem InOrder.flatMap_range {f : Nat → List Region} {at_ : Nat → Nat} {n : Nat}
    (h : ∀ i, i < n → InOrder (at_ i) (f i) (at_ (i + 1))) :
    InOrder (at_ 0) ((List.range n).flatMap f) (at_ n) := by
  induction n with
  | zero => exact Nat.le_refl _
  | succ n ih =>
    rw [List.range_succ, List.flatMap_append, List.flatMap_cons, List.flatMap_nil, List.append_nil]
    exact (ih fun i hi => h i (by omega)).append (h n (by omega))

end InOrder

namespace ByteImage

variable {m m' : ByteImage} {rs : List Region} {r : Region} {start count : Nat}

@[simp] theorem bytes_length : (m.bytes start count).length = count := by
  rw [bytes, List.length_map, List.length_range]

theorem bytes_congr (h : ∀ i, start ≤ i → i < start + count → m' i = m i) :
    m'.bytes start count = m.bytes start count := by
  apply List.map_congr_left
  grind

theorem bytes_add (more : Nat) :
    m.bytes start (count + more) = m.bytes start count ++ m.bytes (start + count) more := by
  rw [bytes, List.range_add, List.map_append, List.map_map]
  congr 1
  apply List.map_congr_left
  intro i _
  rw [Function.comp, Nat.add_assoc]

theorem bytes_slice {total k : Nat} (h : k + count ≤ total) :
    m.bytes (start + k) count = ((m.bytes start total).drop k).take count := by
  obtain ⟨rest, rfl⟩ : ∃ rest, total = k + (count + rest) := ⟨total - (k + count), by omega⟩
  simp [bytes_add]

theorem disk_bytes (lba : Nat) : (m.disk lba).bytes = m.bytes (512 * lba) 512 := by
  rw [disk]

@[simp] theorem suffix_zero : m.suffix 0 = m := by
  funext i
  rw [suffix, Nat.zero_add]

theorem bytes_suffix (base : Nat) : (m.suffix base).bytes start count = m.bytes (base + start) count := by
  apply List.map_congr_left
  intro i _
  rw [suffix, Nat.add_assoc]

theorem bytes_write : (m.write r).bytes r.start r.bytes.length = r.bytes := by
  apply List.ext_getElem
  · rw [bytes_length]
  · intro i hi hr
    simp only [bytes, List.getElem_map, List.getElem_range]
    rw [write, Region.stop, if_pos (by omega), Nat.add_sub_cancel_left, List.getD_eq_getElem _ _ hr]

theorem writes_other {i : Nat} (h : ∀ r ∈ rs, ¬(r.start ≤ i ∧ i < r.stop)) : m.writes rs i = m i := by
  induction rs generalizing m with
  | nil => rfl
  | cons r rs ih =>
    exact (ih fun s hs => h s (List.mem_cons_of_mem _ hs)).trans (if_neg (h r List.mem_cons_self))

theorem writes_append (ss : List Region) : m.writes (rs ++ ss) = (m.writes rs).writes ss :=
  List.foldl_append

-- A region is read back as long as nothing else is written over it.
theorem bytes_writes {before after : List Region} (hafter : ∀ s ∈ after, r.Apart s) :
    (m.writes (before ++ r :: after)).bytes r.start r.bytes.length = r.bytes := by
  rw [writes_append]
  refine (bytes_congr fun i hlow hhigh => ?_).trans (@bytes_write (m.writes before) r)
  refine @writes_other ((m.writes before).write r) after i fun s hs hin => ?_
  grind [Region.Apart, Region.stop]

theorem bytes_writes_of_pairwise {before after : List Region} (hpairwise : rs.Pairwise Region.Apart)
    (hr : r ∈ rs) (hafter : ∀ s ∈ after, r.Apart s) :
    (m.writes (before ++ rs ++ after)).bytes r.start r.bytes.length = r.bytes := by
  obtain ⟨first, rest, rfl⟩ := List.append_of_mem hr
  grind [bytes_writes, List.rel_of_pairwise_cons]

end ByteImage

end Wirth.Lib

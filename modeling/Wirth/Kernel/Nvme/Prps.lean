import Mathlib.Logic.Function.Basic
import Mathlib.Tactic.SplitIfs

namespace Wirth.Kernel.Nvme

def kPageSize : Nat := 4096
def kPrpListEntries : Nat := 512

-- A mapping of pages to frames; `frame` is the identity in the 64-bit kernel.
def physOf (frame : Nat → Nat) (ptr : Nat) : Nat := frame (ptr / kPageSize) * kPageSize + ptr % kPageSize

-- The bytes from there to the end of the page.
def span (address : Nat) : Nat := kPageSize - address % kPageSize

structure Prps where
  prp1 : Nat
  prp2 : Nat
  prpList : List Nat

section Model

variable (phys : Nat → Nat)

-- The entries that are written to `g_prp_list`, and the bytes for which there was none left.
def fillPrpList : Nat → Nat → Nat → List Nat × Nat
  | 0, _, remaining => ([], remaining)
  | entries + 1, cursor, remaining =>
      if remaining = 0 then ([], 0)
      else
        let chunk := if remaining > kPageSize then kPageSize else remaining
        let (list, left) := fillPrpList entries (cursor + chunk) (remaining - chunk)
        (phys cursor :: list, left)

def buildPrps (list buffer bytes : Nat) : Option Prps :=
  if buffer = 0 then none
  else if bytes = 0 then some ⟨0, 0, []⟩
  else
    let firstPhys := phys buffer
    let firstSpan := span firstPhys
    if bytes ≤ firstSpan then some ⟨firstPhys, 0, []⟩
    else
      let remaining := bytes - firstSpan
      let cursor := buffer + firstSpan
      if remaining ≤ kPageSize then some ⟨firstPhys, phys cursor, []⟩
      else
        let (entries, left) := fillPrpList phys kPrpListEntries cursor remaining
        if left ≠ 0 then none else some ⟨firstPhys, phys list, entries⟩

end Model

-- The controller takes the bytes of one page after another.
def visitPages : List Nat → Nat → List Nat
  | [], _ => []
  | page :: pages, bytes =>
      (List.range (min bytes kPageSize)).map (page + ·) ++ visitPages pages (bytes - kPageSize)

-- `listAt` is what the controller finds at the address of a list.
def controllerVisits (listAt : Nat → List Nat) (prp1 prp2 bytes : Nat) : List Nat :=
  let remaining := bytes - span prp1
  (List.range (min bytes (span prp1))).map (prp1 + ·) ++
    visitPages (if remaining ≤ kPageSize then [prp2] else listAt prp2) remaining

section Visits

variable (frame : Nat → Nat) {n m bytes : Nat} (ptr : Nat)

-- The physical addresses of so many bytes.
def addresses (bytes : Nat) : List Nat := (List.range bytes).map fun i => physOf frame (ptr + i)

theorem span_physOf : span (physOf frame ptr) = span ptr := by
  rw [span, physOf, Nat.mul_comm, Nat.mul_add_mod, Nat.mod_mod, span]

theorem addresses_add : addresses frame ptr (n + m) = addresses frame ptr n ++ addresses frame (ptr + n) m := by
  simp only [addresses, List.range_add, List.map_append, List.map_map, Nat.add_assoc]
  rfl

theorem addresses_in_page (h : n ≤ span ptr) : (List.range n).map (physOf frame ptr + ·) = addresses frame ptr n := by
  refine List.map_congr_left fun i hi => ?_
  have hlt := List.mem_range.mp hi
  have hpage : (ptr + i) / kPageSize = ptr / kPageSize ∧ (ptr + i) % kPageSize = ptr % kPageSize + i := by
    simp only [span, kPageSize] at h ⊢
    omega
  rw [physOf, physOf, hpage.1, hpage.2, Nat.add_assoc]

theorem fillPrpList_left (phys : Nat → Nat) (entries cursor remaining : Nat) :
    (fillPrpList phys entries cursor remaining).2 = remaining - entries * kPageSize := by
  induction entries generalizing cursor remaining with
  | zero => simp [fillPrpList]
  | succ entries ih =>
    rw [fillPrpList, Nat.succ_mul]
    split_ifs with hzero hlarge
    · rw [hzero, Nat.zero_sub]
    all_goals
      simp only [ih]
      omega

theorem visit_fillPrpList {entries : Nat} (hptr : ptr % kPageSize = 0) (hroom : bytes ≤ entries * kPageSize) :
    visitPages (fillPrpList (physOf frame) entries ptr bytes).1 bytes = addresses frame ptr bytes := by
  induction entries generalizing ptr bytes with
  | zero =>
    obtain rfl : bytes = 0 := by omega
    rfl
  | succ entries ih =>
    have hspan : span ptr = kPageSize := by rw [span, hptr, Nat.sub_zero]
    rw [Nat.succ_mul] at hroom
    rw [fillPrpList]
    by_cases hzero : bytes = 0
    · rw [if_pos hzero, hzero]
      rfl
    rw [if_neg hzero]
    simp only [visitPages]
    by_cases hlarge : bytes > kPageSize
    · obtain ⟨rest, rfl⟩ : ∃ rest, bytes = kPageSize + rest := ⟨bytes - kPageSize, by omega⟩
      have hnext : (ptr + kPageSize) % kPageSize = 0 := by rw [Nat.add_mod_right, hptr]
      rw [if_pos hlarge, Nat.min_eq_right (by omega), Nat.add_sub_cancel_left, ih _ hnext (by omega),
        addresses_in_page frame ptr (Nat.le_of_eq hspan.symm), addresses_add]
    · have hlast : (fillPrpList (physOf frame) entries (ptr + bytes) 0).1 = [] := by
        cases entries <;> rfl
      rw [if_neg hlarge, Nat.min_eq_left (by omega), addresses_in_page frame ptr (by omega), Nat.sub_self, hlast]
      exact List.append_nil _

theorem controllerVisits_eq {listAt : Nat → List Nat} {prp2 : Nat}
    (hrest : visitPages (if m ≤ kPageSize then [prp2] else listAt prp2) m = addresses frame (ptr + span ptr) m) :
    controllerVisits listAt (physOf frame ptr) prp2 (span ptr + m) = addresses frame ptr (span ptr + m) := by
  rw [controllerVisits, span_physOf, Nat.add_sub_cancel_left, Nat.min_eq_right (Nat.le_add_right _ _), hrest,
    addresses_in_page frame ptr (Nat.le_refl _), addresses_add]

end Visits

-- The controller visits the bytes of the buffer in order, and a buffer is refused only if it needs
-- more pages after the first one than there are entries.
theorem build_prps_exact (frame : Nat → Nat) (list buffer bytes : Nat) :
    (∀ p, buildPrps (physOf frame) list buffer bytes = some p →
      controllerVisits (Function.update (fun _ => []) (physOf frame list) p.prpList) p.prp1 p.prp2 bytes =
        addresses frame buffer bytes) ∧
      (buffer ≠ 0 → buildPrps (physOf frame) list buffer bytes = none →
        kPrpListEntries < (bytes - span buffer + (kPageSize - 1)) / kPageSize) := by
  unfold buildPrps
  simp only [span_physOf]
  by_cases hnull : buffer = 0
  · simp [hnull]
  by_cases hzero : bytes = 0
  · simp [hnull, hzero, controllerVisits, visitPages, addresses]
  by_cases hfirst : bytes ≤ span buffer
  · refine ⟨?_, by simp [hnull, hzero, hfirst]⟩
    rw [if_neg hnull, if_neg hzero, if_pos hfirst]
    rintro p ⟨⟩
    rw [controllerVisits, span_physOf, Nat.min_eq_left hfirst, Nat.sub_eq_zero_of_le hfirst,
      addresses_in_page frame buffer hfirst]
    simp [visitPages]
  obtain ⟨rest, rfl⟩ : ∃ rest, bytes = span buffer + rest := ⟨bytes - span buffer, by omega⟩
  have hcursor : (buffer + span buffer) % kPageSize = 0 := by
    simp only [span, kPageSize]
    omega
  have hspan : span (buffer + span buffer) = kPageSize := by rw [span, hcursor, Nat.sub_zero]
  rw [if_neg hnull, if_neg hzero, if_neg hfirst, Nat.add_sub_cancel_left]
  by_cases hsecond : rest ≤ kPageSize
  · refine ⟨?_, by simp [hsecond]⟩
    rw [if_pos hsecond]
    rintro p ⟨⟩
    refine controllerVisits_eq frame buffer ?_
    rw [if_pos hsecond, visitPages, visitPages, List.append_nil, Nat.min_eq_left hsecond,
      addresses_in_page frame _ (by omega)]
  · have hleft := fillPrpList_left (physOf frame) kPrpListEntries (buffer + span buffer) rest
    rw [if_neg hsecond]
    by_cases hroom : rest ≤ kPrpListEntries * kPageSize
    · rw [Nat.sub_eq_zero_of_le hroom] at hleft
      simp only [hleft, ne_eq, not_true_eq_false, if_false, Option.some.injEq]
      refine ⟨?_, by simp⟩
      rintro p rfl
      refine controllerVisits_eq frame buffer ?_
      rw [if_neg hsecond, Function.update_self]
      exact visit_fillPrpList frame _ hcursor hroom
    · have hmore : rest - kPrpListEntries * kPageSize ≠ 0 := by omega
      simp only [hleft, hmore, ne_eq, not_false_eq_true, if_true]
      refine ⟨by simp, fun _ _ => ?_⟩
      simp only [kPrpListEntries, kPageSize] at hroom ⊢
      omega

end Wirth.Kernel.Nvme

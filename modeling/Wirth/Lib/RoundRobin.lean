import Mathlib.Algebra.Group.Fin.Basic
import Mathlib.Algebra.GroupWithZero.Nat
import Mathlib.Data.List.FinRange

namespace Wirth.Lib

variable {n : Nat} [NeZero n] {i x k m : Fin n}

def ahead (i k : Fin n) : Nat := (k - i - 1).val

-- The first slot behind `i`, going up and around, that has the property.
def nextIn (p : Fin n → Bool) (i : Fin n) : Fin n :=
  (((List.finRange n).map fun k => i + (k + 1)).find? p).getD i

theorem ahead_lt (i k : Fin n) : ahead i k < n := (k - i - 1).isLt

theorem ahead_add (i j : Fin n) : ahead i (i + (j + 1)) = j.val := by
  rw [ahead, add_sub_cancel_left, add_sub_cancel_right]

theorem add_ahead (i k : Fin n) : i + ((k - i - 1) + 1) = k := by
  rw [sub_add_cancel, add_sub_cancel]

theorem ahead_inj (h : ahead i k = ahead i m) : k = m := by
  rw [← add_ahead i k, ← add_ahead i m, Fin.ext h]

theorem ahead_lt_self (h : k ≠ i) : ahead i k < ahead i i := by
  have hself : ahead i i = n - 1 := by
    obtain ⟨m, rfl⟩ := Nat.exists_eq_succ_of_ne_zero (NeZero.ne n)
    rw [ahead, sub_self, zero_sub]
    exact Fin.coe_neg_one
  grind [ahead, ahead_inj]

theorem ahead_of_nearer (h : ahead i x < ahead i m) : ahead x m = ahead i m - (ahead i x + 1) := by
  have hsub : m - x - 1 = (m - i - 1) - (x - i - 1) - 1 := by
    simp
  have hlt := ahead_lt i m
  have hone : (1 : Fin n).val = 1 := by
    rw [Fin.val_one', Nat.mod_eq_of_lt]
    omega
  unfold ahead at h hlt ⊢
  grind [Fin.sub_val_of_le]

theorem ahead_nextIn_le {p : Fin n → Bool} (hk : p k = true) :
    ahead i (nextIn p i) ≤ ahead i k := by
  have hmem : k ∈ (List.finRange n).map fun k => i + (k + 1) :=
    List.mem_map.mpr ⟨k - i - 1, List.mem_finRange _, add_ahead i k⟩
  cases hfind : ((List.finRange n).map fun k => i + (k + 1)).find? p with
  | none =>
    grind
  | some found =>
    obtain ⟨_, index, hindex, hfound, hbefore⟩ := List.find?_eq_some_iff_getElem.mp hfind
    rw [nextIn, hfind, Option.getD_some]
    by_contra hfar
    rw [← hfound, List.getElem_map, ahead_add, List.getElem_finRange] at hfar
    grind [ahead]

-- One turn either reaches a slot that waits or comes nearer to it, and overtakes no slot behind it.
theorem nextIn_turn {p : Fin n → Bool} (hk : p k = true) :
    nextIn p i = k ∨ ahead (nextIn p i) k < ahead i k ∧
      ∀ m, ahead i k < ahead i m → nextIn p i ≠ m ∧ ahead (nextIn p i) k < ahead (nextIn p i) m := by
  rcases (ahead_nextIn_le (i := i) hk).eq_or_lt with heq | hlt
  · exact Or.inl (ahead_inj heq)
  grind [ahead_of_nearer]

end Wirth.Lib

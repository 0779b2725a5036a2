import Wirth.Lib.Edit
import Wirth.Lib.Text

namespace Wirth.Kernel.Shell

open Wirth.Lib

def min3 (a b c : Nat) : Nat :=
  let m := if a < b then a else b
  if m < c then m else c

-- The row `curr` after its columns up to the given one.
def fillRow (a b : Str) (i : Nat) (prev curr : Nat → Nat) : Nat → Nat → Nat
  | 0 => Function.update curr 0 i
  | j + 1 =>
      let curr := fillRow a b i prev curr j
      let cost := if a.getD (i - 1) 0 = b.getD j 0 then 0 else 1
      Function.update curr (j + 1) (min3 (prev (j + 1) + 1) (curr j + 1) (prev j + cost))

-- `prev` and `curr` after so many rows.
def editRows (a b : Str) : Nat → (Nat → Nat) × (Nat → Nat)
  | 0 => (fun j => if j ≤ b.length then j else 0, fun _ => 0)
  | i + 1 =>
      let (prev, curr) := editRows a b i
      let curr := fillRow a b (i + 1) prev curr b.length
      (fun j => if j ≤ b.length then curr j else prev j, curr)

def editDistance (a b : Str) : Nat :=
  if 32 < a.length ∨ 32 < b.length then a.length + b.length
  else (editRows a b a.length).1 b.length

theorem min3_eq (a b c : Nat) : min3 a b c = min (min a b) c := by
  unfold min3
  dsimp only
  split <;> split <;> omega

theorem reverse_take_succ {s : Str} {i : Nat} (h : i < s.length) :
    (s.take (i + 1)).reverse = s.getD i 0 :: (s.take i).reverse := by
  rw [List.take_succ_eq_append_getElem h]
  simp [h]

section Rows

variable {a b : Str} {i : Nat} {prev : Nat → Nat}

theorem fillRow_eq (hi : i < a.length) (curr : Nat → Nat)
    (hprev : ∀ j ≤ b.length, prev j = distance (a.take i).reverse (b.take j).reverse) {k : Nat}
    (hk : k ≤ b.length) : ∀ j ≤ k,
      fillRow a b (i + 1) prev curr k j = distance (a.take (i + 1)).reverse (b.take j).reverse := by
  induction k with
  | zero =>
    intro j hj
    obtain rfl := Nat.le_zero.mp hj
    simp only [fillRow, Function.update_self, List.take_zero, List.reverse_nil, distance_nil,
      List.length_reverse, List.length_take]
    omega
  | succ k ih =>
    intro j hj
    have hrow := ih (by omega)
    rw [fillRow]
    by_cases hlast : j = k + 1
    · subst hlast
      rw [Function.update_self, min3_eq, hrow k (Nat.le_refl k), hprev _ hk, hprev k (by omega),
        reverse_take_succ hi, reverse_take_succ hk, distance]
      rfl
    · rw [Function.update_of_ne hlast]
      exact hrow j (by omega)

-- After a row the distances from the first characters of `a` to all beginnings of `b` are there.
theorem editRows_eq (hi : i ≤ a.length) : ∀ j ≤ b.length,
    (editRows a b i).1 j = distance (a.take i).reverse (b.take j).reverse := by
  induction i with
  | zero =>
    intro j hj
    simp [editRows, hj, distance]
  | succ i ih =>
    intro j hj
    rw [editRows]
    exact (if_pos hj).trans (fillRow_eq hi _ (ih (by omega)) (Nat.le_refl _) j hj)

theorem editDistance_eq (ha : a.length ≤ 32) (hb : b.length ≤ 32) : editDistance a b = distance a b := by
  rw [editDistance, if_neg (by omega), editRows_eq (Nat.le_refl _) _ (Nat.le_refl _), List.take_length,
    List.take_length, distance_reverse]

end Rows

theorem edit_distance_metric {a b c : Str} (ha : a.length ≤ 32) (hb : b.length ≤ 32) (hc : c.length ≤ 32) :
    IsLeast { n | Edits n a b } (editDistance a b) ∧ editDistance a b = editDistance b a ∧
      (editDistance a b = 0 ↔ a = b) ∧ editDistance a c ≤ editDistance a b + editDistance b c := by
  rw [editDistance_eq ha hb, editDistance_eq hb ha, editDistance_eq ha hc, editDistance_eq hb hc]
  exact ⟨isLeast_distance a b, distance_comm a b, distance_eq_zero, distance_triangle a b c⟩

theorem edit_distance_commands : IsLeast { n | Edits n (lit "cat") (lit "cp") } 2 :=
  (edit_distance_metric (a := lit "cat") (b := lit "cp") (c := lit "ls") (by decide) (by decide) (by decide)).1

end Wirth.Kernel.Shell

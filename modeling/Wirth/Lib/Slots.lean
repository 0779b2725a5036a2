import Mathlib.Algebra.BigOperators.Group.Finset.Piecewise
import Mathlib.Data.Fintype.Card

namespace Wirth.Lib

variable {n : Nat} {α : Type}

def firstSlot (p : α → Bool) (slots : Fin n → α) : Option (Fin n) :=
  (List.finRange n).find? fun i => p (slots i)

variable {p : α → Bool} {slots : Fin n → α} {i : Fin n} {a : α}

theorem firstSlot_eq_some
    (h : firstSlot p slots = some i) : p (slots i) = true := by
  simpa using List.find?_some h

theorem firstSlot_eq_none (h : firstSlot p slots = none)
    (i : Fin n) : p (slots i) = false := by
  simpa using List.find?_eq_none.mp h i (List.mem_finRange i)

theorem firstSlot_first {i j : Fin n}
    (h : firstSlot p slots = some i) (hj : j < i) : p (slots j) = false := by
  obtain ⟨-, k, hk, hget, hbefore⟩ := List.find?_eq_some_iff_getElem.mp h
  rw [List.getElem_finRange] at hget
  have hlt : j.val < k := by
    rw [← hget] at hj
    exact hj
  simpa using hbefore j.val hlt

-- A slot that is the only one of its kind is the one that is found.
theorem firstSlot_of_unique
    (hi : p (slots i) = true) (hunique : ∀ j, p (slots j) = true → j = i) :
    firstSlot p slots = some i := by
  cases h : firstSlot p slots with
  | none =>
    have := firstSlot_eq_none h i
    simp [hi] at this
  | some j => rw [hunique j (firstSlot_eq_some h)]

def countSlots (p : α → Bool) (slots : Fin n → α) : Nat :=
  (Finset.univ.filter fun i => p (slots i) = true).card

theorem countSlots_congr {β : Type} {p : α → Bool} {q : β → Bool} {slots : Fin n → α}
    {slots' : Fin n → β} (h : ∀ i, p (slots i) = q (slots' i)) :
    countSlots p slots = countSlots q slots' := by
  unfold countSlots
  congr 1
  ext i
  simp [h i]

theorem countSlots_le (p : α → Bool) (slots : Fin n → α) : countSlots p slots ≤ n := by
  have h := Finset.card_le_univ (Finset.univ.filter fun i => p (slots i) = true)
  rw [Fintype.card_fin] at h
  exact h

theorem firstSlot_free_eq_none_iff :
    firstSlot (fun a => !p a) slots = none ↔ countSlots p slots = n := by
  have hall : countSlots p slots = n ↔ ∀ i, p (slots i) = true := by
    have hcard := @Finset.card_filter_eq_iff _ (Finset.univ : Finset (Fin n))
      (fun i => p (slots i) = true) _
    simpa [countSlots] using hcard
  rw [hall, firstSlot, List.find?_eq_none]
  simp

theorem countSlots_pos (h : p (slots i) = true) :
    0 < countSlots p slots :=
  Finset.card_pos.mpr ⟨i, Finset.mem_filter.mpr ⟨Finset.mem_univ i, h⟩⟩

-- Writing one slot adds the new value to a sum over the table and takes away the old one.
theorem sum_update {M : Type} [AddCommMonoid M] (f : α → M) (slots : Fin n → α) (i : Fin n) (a : α) :
    ∑ j, f (Function.update slots i a j) + f (slots i) = ∑ j, f (slots j) + f a := by
  have hrest : ∑ j ∈ Finset.univ.erase i, f (Function.update slots i a j) =
      ∑ j ∈ Finset.univ.erase i, f (slots j) := by
    apply Finset.sum_congr rfl
    grind
  rw [← Finset.add_sum_erase Finset.univ (fun j => f (Function.update slots i a j)) (Finset.mem_univ i),
    ← Finset.add_sum_erase Finset.univ (fun j => f (slots j)) (Finset.mem_univ i), hrest,
    Function.update_self, add_comm (f a), add_right_comm, add_comm (∑ j ∈ _, _) (f (slots i))]

theorem countSlots_update (p : α → Bool) (slots : Fin n → α) (i : Fin n) (a : α) :
    countSlots p (Function.update slots i a) + (if p (slots i) = true then 1 else 0) =
      countSlots p slots + (if p a = true then 1 else 0) := by
  rw [countSlots, countSlots, Finset.card_filter, Finset.card_filter]
  exact sum_update (fun a => if p a = true then 1 else 0) slots i a

theorem countSlots_fill
    (hi : p (slots i) = false) (ha : p a = true) :
    countSlots p (Function.update slots i a) = countSlots p slots + 1 := by
  grind [countSlots_update]

theorem countSlots_clear
    (hi : p (slots i) = true) (ha : p a = false) :
    countSlots p (Function.update slots i a) = countSlots p slots - 1 := by
  grind [countSlots_update]

theorem countSlots_keep
    (h : p a = p (slots i)) : countSlots p (Function.update slots i a) = countSlots p slots := by
  have hcount := countSlots_update p slots i a
  grind

-- A table in which some slots are filled, and no two of them have the same key.
def DistinctBy {κ : Type} (key : α → κ) (slots : Fin n → Option α) : Prop :=
  ∀ i j a b, slots i = some a → slots j = some b → key a = key b → i = j

section DistinctBy

variable {κ : Type} {key : α → κ} {slots : Fin n → Option α}

theorem update_eq_some {i j : Fin n} {x : Option α} {b : α}
    (h : Function.update slots i x j = some b) : j = i ∧ x = some b ∨ j ≠ i ∧ slots j = some b := by
  grind

theorem DistinctBy.insert (h : DistinctBy key slots) (i : Fin n) {a : α}
    (hfresh : ∀ j b, slots j = some b → key b ≠ key a) :
    DistinctBy key (Function.update slots i (some a)) := by
  intro j k b c hj hk heq
  obtain ⟨rfl, hb⟩ | ⟨hji, hb⟩ := update_eq_some hj
  · grind
  · obtain ⟨rfl, hc⟩ | ⟨-, hc⟩ := update_eq_some hk
    · grind
    · exact h j k b c hb hc heq

theorem DistinctBy.remove (h : DistinctBy key slots) (i : Fin n) :
    DistinctBy key (Function.update slots i none) := by
  intro j k b c hj hk heq
  obtain ⟨-, hb⟩ | ⟨-, hb⟩ := update_eq_some hj
  · cases hb
  · obtain ⟨-, hc⟩ | ⟨-, hc⟩ := update_eq_some hk
    · cases hc
    · exact h j k b c hb hc heq

theorem DistinctBy.replace (h : DistinctBy key slots) {i : Fin n} {a a' : α} (hi : slots i = some a)
    (hkey : key a' = key a) : DistinctBy key (Function.update slots i (some a')) := by
  intro j k b c hj hk heq
  obtain ⟨rfl, hb⟩ | ⟨-, hb⟩ := update_eq_some hj
  · obtain ⟨rfl, -⟩ | ⟨-, hc⟩ := update_eq_some hk
    · rfl
    · rw [← Option.some.inj hb, hkey] at heq
      exact h j k a c hi hc heq
  · obtain ⟨rfl, hc⟩ | ⟨-, hc⟩ := update_eq_some hk
    · rw [← Option.some.inj hc, hkey] at heq
      exact h j k b a hb hi heq
    · exact h j k b c hb hc heq

end DistinctBy

end Wirth.Lib

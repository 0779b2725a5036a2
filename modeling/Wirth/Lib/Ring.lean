import Mathlib.Data.Int.ModEq

namespace Wirth.Lib.Ring

variable {α : Type} {cap start start' : Nat} {slots : Nat → α} {l : List α} {a : α}

-- What was written to a ring since the number `start`, in order: the entry with the number `i` is in
-- the slot `i % cap`.
def Holds (cap : Nat) (slots : Nat → α) (start : Nat) (l : List α) : Prop :=
  ∀ i a, start ≤ i → l[i]? = some a → slots (i % cap) = a

theorem Holds.mono (h : Holds cap slots start l) (hstart : start ≤ start') : Holds cap slots start' l :=
  fun i a hi => h i a (hstart.trans hi)

-- The next entry takes the place of one that is no longer needed.
theorem Holds.push (h : Holds cap slots start l) (hroom : l.length < start + cap) (a : α) :
    Holds cap (Function.update slots (l.length % cap) a) start (l ++ [a]) := by
  intro i b hi hb
  rcases Nat.lt_trichotomy i l.length with hlt | rfl | hgt
  · rw [List.getElem?_append_left hlt] at hb
    have hother : i % cap ≠ l.length % cap := by
      intro hsame
      have hdvd := (Nat.modEq_iff_dvd' hlt.le).mp hsame
      have hle := Nat.le_of_dvd (by omega) hdvd
      omega
    rw [Function.update_of_ne hother]
    exact h i b hi hb
  · rw [List.getElem?_concat_length] at hb
    rw [Function.update_self]
    exact Option.some.inj hb
  · rw [List.getElem?_eq_none (by simp only [List.length_append, List.length_singleton]; omega)] at hb
    cases hb

end Wirth.Lib.Ring

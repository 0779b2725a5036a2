import Mathlib.Data.Finset.Card
import Wirth.Lib.Word

namespace Wirth.Lib

abbrev Bitmap := Nat → Nat

namespace Bitmap

def isSet (words : Bitmap) (i : Nat) : Bool := words (i / 32) &&& (1 <<< (i % 32)) ≠ 0

def raise (words : Bitmap) (i : Nat) : Bitmap :=
  Function.update words (i / 32) (words (i / 32) ||| (1 <<< (i % 32)))

def lower (words : Bitmap) (i : Nat) : Bitmap :=
  Function.update words (i / 32) (words (i / 32) &&& complement (1 <<< (i % 32)))

theorem isSet_eq_testBit (words : Bitmap) (i : Nat) :
    words.isSet i = (words (i / 32)).testBit (i % 32) := by
  simp [isSet, Nat.shiftLeft_eq, Nat.and_two_pow]

theorem testBit_complement {k j : Nat} (hk : k < 32) (hj : j < 32) :
    (complement (1 <<< k)).testBit j = !decide (k = j) := by
  have hlt : 2 ^ k < 2 ^ 32 := Nat.pow_lt_pow_right (by decide) hk
  have hform : complement (1 <<< k) = 2 ^ 32 - (2 ^ k + 1) := by
    rw [complement, Nat.shiftLeft_eq, Nat.one_mul]
    omega
  rw [hform, Nat.testBit_two_pow_sub_succ hlt, Nat.testBit_two_pow]
  simp [hj]

theorem isSet_raise (words : Bitmap) (i j : Nat) :
    (words.raise i).isSet j = (decide (i = j) || words.isSet j) := by
  rw [isSet_eq_testBit, isSet_eq_testBit]
  by_cases hword : j / 32 = i / 32
  · rw [raise, hword, Function.update_self, Nat.testBit_or, Nat.shiftLeft_eq, Nat.one_mul,
      Nat.testBit_two_pow, Bool.or_comm]
    grind
  · have hne : i ≠ j := by
      rintro rfl
      exact hword rfl
    rw [raise, Function.update_of_ne hword]
    simp [hne]

theorem isSet_lower (words : Bitmap) (i j : Nat) :
    (words.lower i).isSet j = (!decide (i = j) && words.isSet j) := by
  rw [isSet_eq_testBit, isSet_eq_testBit]
  by_cases hword : j / 32 = i / 32
  · rw [lower, hword, Function.update_self, Nat.testBit_and,
      testBit_complement (Nat.mod_lt _ (by decide)) (Nat.mod_lt _ (by decide)), Bool.and_comm]
    grind
  · have hne : i ≠ j := by
      rintro rfl
      exact hword rfl
    rw [lower, Function.update_of_ne hword]
    simp [hne]

theorem isSet_of_ones {words : Bitmap} {i : Nat} (h : words (i / 32) = 0xFFFFFFFF) :
    words.isSet i = true := by
  rw [isSet_eq_testBit, h, show 0xFFFFFFFF = 2 ^ 32 - 1 from rfl, Nat.testBit_two_pow_sub_one]
  exact decide_eq_true (Nat.mod_lt _ (by decide))

def clear (words : Bitmap) (n : Nat) : Finset Nat := {i ∈ Finset.range n | words.isSet i = false}

theorem mem_clear {words : Bitmap} {n i : Nat} :
    i ∈ words.clear n ↔ i < n ∧ words.isSet i = false := by
  rw [clear, Finset.mem_filter, Finset.mem_range]

theorem clear_raise (words : Bitmap) (n i : Nat) :
    (words.raise i).clear n = (words.clear n).erase i := by
  ext j
  rw [mem_clear, Finset.mem_erase, mem_clear, isSet_raise, Bool.or_eq_false_iff,
    decide_eq_false_iff_not]
  grind

theorem clear_lower {n i : Nat} (words : Bitmap) (hi : i < n) :
    (words.lower i).clear n = insert i (words.clear n) := by
  ext j
  rw [mem_clear, Finset.mem_insert, mem_clear, isSet_lower, Bool.and_eq_false_iff]
  grind

end Bitmap

end Wirth.Lib

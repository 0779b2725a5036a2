import Mathlib.Data.Nat.Bitwise

namespace Wirth.Lib

def uint32 (n : Nat) : Nat := n % 2 ^ 32

theorem uint32_eq_self {n : Nat} (h : n < 2 ^ 32) : uint32 n = n := Nat.mod_eq_of_lt h

theorem uint32_lt (n : Nat) : uint32 n < 2 ^ 32 := Nat.mod_lt _ (by decide)

def complement (n : Nat) : Nat := 2 ^ 32 - 1 - n

-- Round up to a multiple of a power of two, with masks as the usual idiom does it.
def roundUp (value alignment : Nat) : Nat :=
  uint32 (value + alignment - 1) &&& complement (alignment - 1)

theorem land_complement {x k : Nat} (hx : x < 2 ^ 32) (hk : k ≤ 32) :
    x &&& complement (2 ^ k - 1) = x / 2 ^ k * 2 ^ k := by
  have hle : 2 ^ k ≤ 2 ^ 32 := Nat.pow_le_pow_right (by decide) hk
  have hmask : complement (2 ^ k - 1) = 2 ^ 32 - ((2 ^ k - 1) + 1) := by
    rw [complement]
    omega
  apply Nat.eq_of_testBit_eq
  intro i
  rw [hmask, Nat.testBit_and, Nat.testBit_two_pow_sub_succ (by omega), Nat.testBit_two_pow_sub_one,
    Nat.testBit_mul_two_pow]
  by_cases hik : i < k
  · simp [hik, Nat.not_le.mpr hik]
  have hki : k ≤ i := Nat.not_lt.mp hik
  rw [Nat.testBit_div_two_pow, Nat.sub_add_cancel hki]
  by_cases hi : i < 32
  · simp [hik, hki, hi]
  · have hbig : x.testBit i = false :=
      Nat.testBit_lt_two_pow (hx.trans_le (Nat.pow_le_pow_right (by decide) (Nat.not_lt.mp hi)))
    simp [hbig]

-- The least multiple of the alignment that is not below the value.
theorem roundUp_spec (value : Nat) {k : Nat} (hk : k ≤ 32) (h : value + 2 ^ k ≤ 2 ^ 32) :
    2 ^ k ∣ roundUp value (2 ^ k) ∧ value ≤ roundUp value (2 ^ k) ∧
      roundUp value (2 ^ k) < value + 2 ^ k := by
  have hpos : 0 < 2 ^ k := Nat.two_pow_pos k
  have hfits : value + 2 ^ k - 1 < 2 ^ 32 := by omega
  have hround : roundUp value (2 ^ k) = (value + 2 ^ k - 1) / 2 ^ k * 2 ^ k := by
    rw [roundUp, uint32_eq_self hfits, land_complement hfits hk]
  have hdiv := Nat.div_add_mod (value + 2 ^ k - 1) (2 ^ k)
  have hmod := Nat.mod_lt (value + 2 ^ k - 1) hpos
  grind [Nat.dvd_mul_left]

theorem roundUp_wrapped {value k : Nat} (hk : k ≤ 32) (hv : value ≤ 2 ^ 32) (h : 2 ^ 32 < value + 2 ^ k) :
    roundUp value (2 ^ k) = 0 := by
  have hlt : uint32 (value + 2 ^ k - 1) < 2 ^ k := by
    rw [uint32]
    omega
  rw [roundUp, land_complement (uint32_lt _) hk, Nat.div_eq_of_lt hlt, Nat.zero_mul]

end Wirth.Lib

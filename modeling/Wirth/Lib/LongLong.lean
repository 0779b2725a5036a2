import Mathlib.Tactic.NormNum

namespace Wirth.Lib

-- Signed 64-bit arithmetic on integers: a result that does not fit is reduced
-- modulo 2^64 into the representable range.
def wrap64 (x : Int) : Int := x.bmod (2 ^ 64)

def InRange64 (x : Int) : Prop := -(2 ^ 63) ≤ x ∧ x < 2 ^ 63

instance (x : Int) : Decidable (InRange64 x) := inferInstanceAs (Decidable (_ ∧ _))

theorem wrap64_inRange (x : Int) : InRange64 (wrap64 x) := by
  grind [InRange64, wrap64]

theorem wrap64_eq_self {x : Int} (h : InRange64 x) : wrap64 x = x := by
  obtain ⟨hlo, hhi⟩ := h
  apply Int.bmod_eq_of_le <;> norm_num at * <;> omega

-- Reducing modulo 2^64 does not change a residue modulo a divisor of 2^64.
theorem wrap64_emod (x : Int) {m : Int} (hm : m ∣ 2 ^ 64) : wrap64 x % m = x % m := by
  unfold wrap64
  rw [Int.bmod_def]
  split
  · grind [Int.emod_emod_of_dvd]
  · have hd : m ∣ ((2 ^ 64 : Nat) : Int) := by exact_mod_cast hm
    rw [Int.sub_emod, Int.emod_emod_of_dvd x hd, Int.emod_eq_zero_of_dvd hd]
    simp

theorem wrap64_emod_u16 (x : Int) : wrap64 x % 65536 = x % 65536 :=
  wrap64_emod x (by norm_num)

end Wirth.Lib

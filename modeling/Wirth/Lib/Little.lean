import Wirth.Lib.Buffer
import Wirth.Lib.Word

namespace Wirth.Lib

-- Little-endian words in lists of bytes.

def le32 (n : Nat) : List UInt8 :=
  [UInt8.ofNat n, UInt8.ofNat (n / 2 ^ 8), UInt8.ofNat (n / 2 ^ 16), UInt8.ofNat (n / 2 ^ 24)]

def at32 (bytes : List UInt8) (i : Nat) : Nat :=
  (bytes.getD i 0).toNat + 2 ^ 8 * (bytes.getD (i + 1) 0).toNat +
    2 ^ 16 * (bytes.getD (i + 2) 0).toNat + 2 ^ 24 * (bytes.getD (i + 3) 0).toNat

@[simp] theorem le32_length (n : Nat) : (le32 n).length = 4 := rfl

theorem at32_lt (bytes : List UInt8) (i : Nat) : at32 bytes i < 2 ^ 32 := by
  have h0 := (bytes.getD i 0).toNat_lt
  have h1 := (bytes.getD (i + 1) 0).toNat_lt
  have h2 := (bytes.getD (i + 2) 0).toNat_lt
  have h3 := (bytes.getD (i + 3) 0).toNat_lt
  unfold at32
  omega

theorem at32_congr {bytes bytes' : List UInt8} {i j : Nat}
    (h : ∀ k, k < 4 → bytes.getD (i + k) 0 = bytes'.getD (j + k) 0) : at32 bytes i = at32 bytes' j := by
  have h0 := h 0 (by decide)
  have h1 := h 1 (by decide)
  have h2 := h 2 (by decide)
  have h3 := h 3 (by decide)
  rw [Nat.add_zero, Nat.add_zero] at h0
  rw [at32, at32, h0, h1, h2, h3]

theorem at32_le32 {n : Nat} (h : n < 2 ^ 32) : at32 (le32 n) 0 = n := by
  simp only [at32, le32, List.getD_cons_zero, List.getD_cons_succ, Nat.zero_add, UInt8.toNat_ofNat']
  omega

theorem at32_append {pre post : List UInt8} {n : Nat} (h : n < 2 ^ 32) :
    at32 (pre ++ (le32 n ++ post)) pre.length = n := by
  refine (at32_congr fun k hk => ?_).trans (at32_le32 h)
  rw [List.getD_append_right _ _ _ _ (by omega), Nat.add_sub_cancel_left, Nat.zero_add,
    List.getD_append _ _ _ _ (by simpa using hk)]

theorem at32_replicate_zero (n i : Nat) : at32 (List.replicate n 0) i = 0 := by
  refine (at32_congr fun k _ => ?_).trans (show at32 [] 0 = 0 from rfl)
  simp

section Splice

variable {v src : List UInt8} {i j : Nat}

-- A word that lies within what was put into a buffer, and one that lies beside it.

theorem at32_splice (h : i + src.length ≤ v.length) (hj : j + 4 ≤ src.length) :
    at32 (splice v i src) (i + j) = at32 src j := by
  refine at32_congr fun k hk => ?_
  rw [splice_getD h, if_pos (by omega), Nat.add_assoc, Nat.add_sub_cancel_left]

theorem at32_splice_other (h : i + src.length ≤ v.length) (hj : j + 4 ≤ i ∨ i + src.length ≤ j) :
    at32 (splice v i src) j = at32 v j := by
  refine at32_congr fun k hk => ?_
  rw [splice_getD h, if_neg (by omega)]

end Splice

end Wirth.Lib

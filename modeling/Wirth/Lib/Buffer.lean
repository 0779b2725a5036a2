import Wirth.Lib.Result
import Wirth.Lib.LongLong

namespace Wirth.Lib

-- Byte vectors indexed by signed integers. Every access checks its index.

def toByte (x : Int) : UInt8 := UInt8.ofNat (x % 256).toNat

def load (v : List UInt8) (i : Int) : Result UInt8 :=
  if 0 ≤ i ∧ i < v.length then .ok (v.getD i.toNat 0) else .error .outOfBounds

def store (v : List UInt8) (i : Int) (b : UInt8) : Result (List UInt8) :=
  if 0 ≤ i ∧ i < v.length then .ok (v.set i.toNat b) else .error .outOfBounds

def loadU16 (v : List UInt8) (i : Int) : Result Int := do
  let lo ← load v i
  let hi ← load v (i + 1)
  .ok (lo.toNat + 256 * hi.toNat)

def storeU16 (v : List UInt8) (i : Int) (x : Int) : Result (List UInt8) := do
  let v ← store v i (toByte x)
  store v (i + 1) (toByte (x >>> (8 : Nat)))

def splice (v : List UInt8) (i : Nat) (src : List UInt8) : List UInt8 :=
  v.take i ++ src ++ v.drop (i + src.length)

def copyTo (dst : List UInt8) (i : Int) (src : List UInt8) : Result (List UInt8) :=
  if 0 ≤ i ∧ i + src.length ≤ dst.length then .ok (splice dst i.toNat src)
  else .error .outOfBounds

def u16Bytes (x : Int) : List UInt8 := [toByte x, toByte (x >>> (8 : Nat))]

-- The little-endian halfword at an index, where bytes past the end read as zero.
def u16At (v : List UInt8) (i : Nat) : Nat := (v.getD i 0).toNat + 256 * (v.getD (i + 1) 0).toNat

@[simp] theorem toByte_toNat (x : Int) : ((toByte x).toNat : Int) = x % 256 := by
  
  simp only [toByte, UInt8.toNat_ofNat']
  omega

@[simp] theorem toByte_natCast (b : UInt8) : toByte b.toNat = b := by
  have hb := b.toNat_lt
  apply UInt8.toNat_inj.mp
  have h := toByte_toNat b.toNat
  omega

theorem u16Bytes_value (x : Int) :
    ((toByte x).toNat : Int) + 256 * ((toByte (x >>> (8 : Nat))).toNat : Int) = x % 65536 := by
  grind [toByte_toNat, Int.shiftRight_eq_div_pow]

variable {dst v src xs w : List UInt8} {i : Int} {ys : List UInt8} {b : UInt8} {x : Int}

theorem load_eq_ok :
    load v i = .ok b ↔ (0 ≤ i ∧ i < v.length) ∧ v.getD i.toNat 0 = b :=
  ite_ok_error_eq_ok

theorem store_eq_ok :
    store v i b = .ok w ↔ (0 ≤ i ∧ i < v.length) ∧ v.set i.toNat b = w :=
  ite_ok_error_eq_ok

theorem copyTo_eq_ok :
    copyTo dst i src = .ok w ↔ (0 ≤ i ∧ i + src.length ≤ dst.length) ∧
      splice dst i.toNat src = w :=
  ite_ok_error_eq_ok

theorem loadU16_eq_ok :
    loadU16 v i = .ok x ↔ (0 ≤ i ∧ i + 1 < v.length) ∧ x = u16At v i.toNat := by
  simp only [loadU16, bind_eq_ok, load_eq_ok, Except.ok.injEq]
  constructor
  · grind [u16At]
  grind [u16At]

theorem storeU16_eq_ok :
    storeU16 v i x = .ok w ↔ (0 ≤ i ∧ i + 1 < v.length) ∧
      (v.set i.toNat (toByte x)).set (i.toNat + 1) (toByte (x >>> (8 : Nat))) = w := by
  simp only [storeU16, bind_eq_ok, store_eq_ok]
  constructor
  · grind
  grind

theorem storeU16_length (h : storeU16 v i x = .ok w) :
    w.length = v.length := by
  obtain ⟨_, rfl⟩ := storeU16_eq_ok.mp h
  simp

theorem splice_length {i : Nat} (h : i + src.length ≤ v.length) :
    (splice v i src).length = v.length := by
  simp only [splice, List.length_append, List.length_take, List.length_drop]
  omega

theorem copyTo_length (h : copyTo dst i src = .ok w) :
    w.length = dst.length := by
  obtain ⟨hi, rfl⟩ := copyTo_eq_ok.mp h
  exact splice_length (by omega)

theorem replicate_zero_getD (n i : Nat) : (List.replicate n (0 : UInt8)).getD i 0 = 0 := by
  grind

theorem storeU16_getD_of_ne (h : storeU16 v i x = .ok w)
    {j : Nat} (hj : (j : Int) ≠ i) (hj' : (j : Int) ≠ i + 1) : w.getD j 0 = v.getD j 0 := by
  obtain ⟨hi, rfl⟩ := storeU16_eq_ok.mp h
  grind

-- A halfword store followed by a load gives the value modulo 2^16.
theorem storeU16_u16At (h : storeU16 v i x = .ok w) :
    (u16At w i.toNat : Int) = x % 65536 := by
  obtain ⟨hi, rfl⟩ := storeU16_eq_ok.mp h
  grind [u16At, u16Bytes_value]

theorem storeU16_u16At_of_disjoint (h : storeU16 v i x = .ok w)
    {j : Nat} (hj : (j : Int) + 2 ≤ i ∨ i + 2 ≤ j) : u16At w j = u16At v j := by
  grind [u16At, storeU16_getD_of_ne]

theorem u16At_lt (v : List UInt8) (i : Nat) : u16At v i < 65536 := by
  have h := (v.getD i 0).toNat_lt
  have h' := (v.getD (i + 1) 0).toNat_lt
  unfold u16At
  omega

theorem storeU16_self (h : storeU16 v i x = .ok w)
    (hx : x % 65536 = u16At v i.toNat) : w = v := by
  have hlen := storeU16_length h
  obtain ⟨hi, _⟩ := storeU16_eq_ok.mp h
  have hw := storeU16_u16At h
  have hlo := (w.getD i.toNat 0).toNat_lt
  have hlo' := (v.getD i.toNat 0).toNat_lt
  simp only [u16At] at hw hx
  apply List.ext_getElem hlen
  intro j hj hj'
  have hget : w.getD j 0 = v.getD j 0 := by
    by_cases h0 : (j : Int) = i
    · have he : j = i.toNat := by omega
      subst he
      apply UInt8.toNat_inj.mp
      omega
    · by_cases h1 : (j : Int) = i + 1
      · have he : j = i.toNat + 1 := by omega
        subst he
        apply UInt8.toNat_inj.mp
        omega
      · exact storeU16_getD_of_ne h h0 h1
  simpa [hj, hj'] using hget

theorem splice_getD {i : Nat} (h : i + src.length ≤ v.length) (j : Nat) :
    (splice v i src).getD j 0 =
      if i ≤ j ∧ j < i + src.length then src.getD (j - i) 0 else v.getD j 0 := by
  have hlen : (v.take i).length = i := by
    rw [List.length_take]
    omega
  simp only [splice, List.getD_eq_getElem?_getD]
  by_cases h0 : j < i
  · grind
  · grind

theorem splice_inj {i : Nat} (hlen : xs.length = ys.length)
    (h : splice v i xs = splice v i ys) : xs = ys := by
  grind [splice, List.append_cancel_left, List.append_cancel_right]

theorem splice_take {i : Nat} (h : i + src.length ≤ v.length) :
    (splice v i src).take (i + src.length) = v.take i ++ src := by
  have hlen : (v.take i ++ src).length = i + src.length := by
    rw [List.length_append, List.length_take]
    omega
  rw [splice, ← hlen, List.take_left]

theorem splice_splice {i : Nat}
    (h : i + xs.length + ys.length ≤ v.length) :
    splice (splice v i xs) (i + xs.length) ys = splice v i (xs ++ ys) := by
  have hlen : (v.take i ++ xs).length = i + xs.length := by
    rw [List.length_append, List.length_take]
    omega
  have hdrop : (splice v i xs).drop (i + xs.length + ys.length) =
      v.drop (i + xs.length + ys.length) := by
    rw [splice, ← hlen, ← List.drop_drop, List.drop_left, List.drop_drop, hlen]
  rw [splice, splice_take (by omega), hdrop]
  simp only [splice, List.length_append, List.append_assoc, Nat.add_assoc]

theorem store_eq_splice (h : store v i b = .ok w) :
    (0 ≤ i ∧ i + 1 ≤ v.length) ∧ w = splice v i.toNat [b] := by
  obtain ⟨hi, rfl⟩ := store_eq_ok.mp h
  refine ⟨by omega, ?_⟩
  rw [splice, List.set_eq_take_append_cons_drop, if_pos (by omega)]
  simp

theorem storeU16_eq_splice (h : storeU16 v i x = .ok w) :
    (0 ≤ i ∧ i + 2 ≤ v.length) ∧ w = splice v i.toNat (u16Bytes x) := by
  obtain ⟨mid, hmid, hw⟩ := bind_eq_ok.mp h
  obtain ⟨hi, rfl⟩ := store_eq_splice hmid
  obtain ⟨hi', rfl⟩ := store_eq_splice hw
  rw [splice_length (by simp; omega)] at hi'
  refine ⟨by omega, ?_⟩
  rw [show (i + 1).toNat = i.toNat + [toByte x].length by simp; omega,
    splice_splice (by simp; omega)]
  rfl

-- When an access faults.

theorem load_faults :
    Faults (load v i) ↔ ¬(0 ≤ i ∧ i < v.length) := by
  unfold load
  split_ifs with h <;> simp [h]

theorem store_faults :
    Faults (store v i b) ↔ ¬(0 ≤ i ∧ i < v.length) := by
  unfold store
  split_ifs with h <;> simp [h]

theorem loadU16_faults :
    Faults (loadU16 v i) ↔ ¬(0 ≤ i ∧ i + 1 < v.length) := by
  simp only [loadU16, faults_bind, load_faults, load_eq_ok, not_faults_ok, and_false, exists_false,
    or_false]
  grind

theorem storeU16_faults :
    Faults (storeU16 v i x) ↔ ¬(0 ≤ i ∧ i + 1 < v.length) := by
  simp only [storeU16, faults_bind, store_faults, store_eq_ok]
  constructor
  · grind
  grind [List.length_set]

theorem copyTo_faults :
    Faults (copyTo dst i src) ↔ ¬(0 ≤ i ∧ i + src.length ≤ dst.length) := by
  unfold copyTo
  split_ifs with h <;> simp [h]

end Wirth.Lib

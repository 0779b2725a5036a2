import Wirth.Lib.Word

namespace Wirth.Lib

abbrev Memory := Nat → UInt8

namespace Memory

def read32 (m : Memory) (a : Nat) : Nat :=
  (m a).toNat + 2 ^ 8 * (m (a + 1)).toNat + 2 ^ 16 * (m (a + 2)).toNat + 2 ^ 24 * (m (a + 3)).toNat

def write32 (m : Memory) (a w : Nat) : Memory := fun i =>
  if a ≤ i ∧ i < a + 4 then UInt8.ofNat (w / 2 ^ (8 * (i - a))) else m i

def Same (m m' : Memory) (lo hi : Nat) : Prop := ∀ i, lo ≤ i → i < hi → m' i = m i

variable {m m' : Memory} {a b lo hi w : Nat}

theorem Same.refl (m : Memory) (lo hi : Nat) : m.Same m lo hi := fun _ _ _ => rfl

theorem Same.mono (h : m.Same m' lo hi) (ha : lo ≤ a) (hb : b ≤ hi) : m.Same m' a b :=
  fun i h1 h2 => h i (ha.trans h1) (h2.trans_le hb)

theorem read32_lt (m : Memory) (a : Nat) : m.read32 a < 2 ^ 32 := by
  have h0 := (m a).toNat_lt
  have h1 := (m (a + 1)).toNat_lt
  have h2 := (m (a + 2)).toNat_lt
  have h3 := (m (a + 3)).toNat_lt
  simp only [read32]
  omega

theorem Same.read32 (h : m.Same m' a (a + 4)) : m'.read32 a = m.read32 a := by
  simp only [Memory.read32, h a (by omega) (by omega), h (a + 1) (by omega) (by omega),
    h (a + 2) (by omega) (by omega), h (a + 3) (by omega) (by omega)]

theorem write32_outside (h : hi ≤ a ∨ a + 4 ≤ lo) : m.Same (m.write32 a w) lo hi := by
  intro i h1 h2
  exact if_neg (by omega)

theorem write32_byte (m : Memory) (a w : Nat) {k : Nat} (hk : k < 4) :
    ((m.write32 a w) (a + k)).toNat = w / 2 ^ (8 * k) % 2 ^ 8 := by
  rw [write32, if_pos (by omega), Nat.add_sub_cancel_left, UInt8.toNat_ofNat']

theorem read32_write32 (m : Memory) (a : Nat) (hw : w < 2 ^ 32) :
    (m.write32 a w).read32 a = w := by
  have h0 := write32_byte m a w (k := 0) (by omega)
  have h1 := write32_byte m a w (k := 1) (by omega)
  have h2 := write32_byte m a w (k := 2) (by omega)
  have h3 := write32_byte m a w (k := 3) (by omega)
  rw [Nat.add_zero] at h0
  simp only [read32, h0, h1, h2, h3]
  omega

theorem read32_write32_of_apart (h : b + 4 ≤ a ∨ a + 4 ≤ b) :
    (m.write32 a w).read32 b = m.read32 b :=
  (write32_outside h).read32

end Memory

end Wirth.Lib

import Wirth.Lib.Device

namespace Wirth.Lib

-- Sectors that follow each other, written and read as one stretch of bytes.
def Disk.put (d : Disk) (lba count : Nat) (data : List UInt8) : Disk := fun k =>
  if lba ≤ k ∧ k < lba + count then .ofBytes (data.drop (512 * (k - lba))) else d k

section Put

variable {d : Disk} {lba count : Nat} {data : List UInt8}

theorem Disk.put_zero : d.put lba 0 data = d := by
  funext k
  exact if_neg (by omega)

theorem Disk.put_other {k : Nat} (h : ¬(lba ≤ k ∧ k < lba + count)) : d.put lba count data k = d k :=
  if_neg h

theorem Disk.put_add (more : Nat) : d.put lba (count + more) data =
    (d.put lba count data).put (lba + count) more (data.drop (512 * count)) := by
  funext k
  rw [Disk.put, Disk.put, Disk.put]
  by_cases hsecond : lba + count ≤ k ∧ k < lba + count + more
  · rw [if_pos (by omega), if_pos hsecond, List.drop_drop,
      show 512 * count + 512 * (k - (lba + count)) = 512 * (k - lba) by omega]
  grind

theorem Disk.put_take {more : Nat} (h : 512 * count ≤ more) :
    d.put lba count (data.take more) = d.put lba count data := by
  funext k
  rw [Disk.put, Disk.put]
  by_cases hk : lba ≤ k ∧ k < lba + count
  · have hsector : ∀ bytes : List UInt8, Sector.ofBytes (bytes.take 512) = Sector.ofBytes bytes := by
      intro bytes
      rw [Sector.ofBytes, Sector.ofBytes, Sector.mk.injEq, List.take_take, Nat.min_self, List.length_take]
      congr 2
      omega
    rw [if_pos hk, if_pos hk, ← hsector, ← hsector (data.drop _), List.drop_take, List.take_take,
      Nat.min_eq_left (by omega)]
  · rw [if_neg hk, if_neg hk]

theorem Disk.bytes_add (more : Nat) :
    d.bytes lba (count + more) = d.bytes lba count ++ d.bytes (lba + count) more := by
  induction count generalizing lba with
  | zero => rw [Nat.zero_add, Disk.bytes, List.nil_append, Nat.add_zero]
  | succ count ih =>
    grind [Disk.bytes]

theorem Disk.bytes_put (h : data.length = 512 * count) : (d.put lba count data).bytes lba count = data := by
  induction count generalizing d lba data with
  | zero => grind [Disk.bytes]
  | succ count ih =>
    have hfirst : (d.put lba (count + 1) data) lba = .ofBytes data := by
      rw [Disk.put, if_pos (by omega), Nat.sub_self, Nat.mul_zero, List.drop_zero]
    have hrest : (d.put lba (count + 1) data).bytes (lba + 1) count = data.drop 512 := by
      rw [Nat.add_comm count 1, Disk.put_add, Nat.mul_one]
      exact ih (by rw [List.length_drop]; omega)
    rw [Disk.bytes, hfirst, hrest, Sector.bytes_ofBytes, show 512 - data.length = 0 by omega,
      List.replicate_zero, List.append_nil, List.take_append_drop]

end Put

end Wirth.Lib

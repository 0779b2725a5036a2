import Wirth.Lib.Device
import Wirth.Lib.Little

namespace Wirth.Toolchain.EfiImage

open Wirth.Lib

def kBytesPerSector : Nat := 512

def kBootPartitionMiB : Nat := 32

def kPartitionAlignmentSectors : Nat := 2048

def kMbrPartitionTypeEfi : UInt8 := 0xEF

def kMbrPartitionTypeLinux : UInt8 := 0x83

structure Partition where
  startSector : Nat
  sectorCount : Nat
  type : UInt8
  bootable : Bool
  deriving DecidableEq

def Partition.entry (part : Partition) : List UInt8 :=
  [if part.bootable then 0x80 else 0x00, 0x01, 0x01, 0x00, part.type, 0xFE, 0xFF, 0xFF] ++
    (le32 (uint32 part.startSector) ++ le32 (uint32 part.sectorCount))

def writePartition (sector : List UInt8) (index : Nat) (part : Partition) : List UInt8 :=
  splice sector (446 + index * 16) part.entry

def writeMbr (boot persistent : Partition) : Sector :=
  let sector := writePartition (List.replicate 512 0) 0 boot
  let sector := writePartition sector 1 persistent
  .ofBytes (splice sector 510 [0x55, 0xAA])

-- The partitions of a disk of that size, if there is room for the second one.
def layoutPartitions (sizeMiB : Nat) : Option (Partition × Partition) :=
  let totalDiskSectors := sizeMiB * 1024 * 1024 / kBytesPerSector
  let bootSectorCount := uint32 (kBootPartitionMiB * 1024 * 1024) / kBytesPerSector
  let persistStart := kPartitionAlignmentSectors + bootSectorCount
  let persistCount := totalDiskSectors - persistStart
  if persistCount = 0 ∨ uint32 (persistCount * kBytesPerSector / (1024 * 1024)) = 0 then none
  else some (⟨kPartitionAlignmentSectors, bootSectorCount, kMbrPartitionTypeEfi, true⟩,
    ⟨persistStart, persistCount, kMbrPartitionTypeLinux, false⟩)

-- A disk as the tool leaves it. What it puts into the partitions is left open.
structure Image (sizeMiB : Nat) (d : Disk) : Prop where
  mbr : ∃ boot persistent, layoutPartitions sizeMiB = some (boot, persistent) ∧
    d 0 = writeMbr boot persistent
  gap : ∀ lba, 0 < lba → lba < kPartitionAlignmentSectors → d lba = .zero

-- What the four entries of a partition table say: where a partition starts and how long it is.
def listedPartitions (sector : Sector) : List (Nat × Nat) :=
  (List.range 4).map fun i =>
    (at32 sector.bytes (446 + i * 16 + 8), at32 sector.bytes (446 + i * 16 + 12))

def Protected (mbr : Sector) (lba : Nat) : Prop :=
  lba = 0 ∨ ∃ p ∈ listedPartitions mbr, p.1 ≤ lba ∧ lba < p.1 + p.2

section Mbr

variable {boot persistent : Partition}

@[simp] theorem Partition.entry_length (part : Partition) : part.entry.length = 16 := rfl

theorem Partition.entry_start (part : Partition) : at32 part.entry 8 = uint32 part.startSector :=
  @at32_append [if part.bootable then 0x80 else 0x00, 0x01, 0x01, 0x00, part.type, 0xFE, 0xFF, 0xFF]
    (le32 (uint32 part.sectorCount)) _ (uint32_lt _)

theorem Partition.entry_count (part : Partition) : at32 part.entry 12 = uint32 part.sectorCount :=
  @at32_append ([if part.bootable then 0x80 else 0x00, 0x01, 0x01, 0x00, part.type, 0xFE, 0xFF, 0xFF] ++
    le32 (uint32 part.startSector)) [] _ (uint32_lt _)

theorem writePartition_length {sector : List UInt8} {index : Nat} {part : Partition}
    (h : sector.length = 512) (hindex : index < 4) : (writePartition sector index part).length = 512 := by
  grind [writePartition, splice_length, Partition.entry_length]

theorem listedPartitions_writeMbr : listedPartitions (writeMbr boot persistent) =
    [(uint32 boot.startSector, uint32 boot.sectorCount),
      (uint32 persistent.startSector, uint32 persistent.sectorCount), (0, 0), (0, 0)] := by
  have hzero : (List.replicate 512 (0 : UInt8)).length = 512 := List.length_replicate
  have hfirst := @writePartition_length _ _ boot hzero (show 0 < 4 by omega)
  have hsecond := @writePartition_length _ _ persistent hfirst (show 1 < 4 by omega)
  have hmark : (splice (writePartition (writePartition (List.replicate 512 0) 0 boot) 1 persistent) 510
      [0x55, 0xAA]).length = 512 := by
    grind [splice_length]
  have htable : ∀ k, k + 4 ≤ 510 → at32 (writeMbr boot persistent).bytes k =
      at32 (writePartition (writePartition (List.replicate 512 0) 0 boot) 1 persistent) k := by
    intro k hk
    rw [writeMbr, Sector.bytes_ofBytes_full hmark, at32_splice_other (by rw [hsecond]; decide) (by omega)]
  have hboot : ∀ k, k + 4 ≤ 16 → at32 (writeMbr boot persistent).bytes (446 + k) = at32 boot.entry k := by
    intro k hk
    rw [htable _ (by omega), writePartition, at32_splice_other (by rw [hfirst, Partition.entry_length]; omega) (by omega),
      writePartition, Nat.zero_mul, Nat.add_zero, at32_splice (by rw [hzero, Partition.entry_length]; omega) hk]
  have hpersistent : ∀ k, k + 4 ≤ 16 →
      at32 (writeMbr boot persistent).bytes (462 + k) = at32 persistent.entry k := by
    intro k hk
    rw [htable _ (by omega), writePartition, Nat.one_mul, at32_splice (by rw [hfirst, Partition.entry_length]; omega) hk]
  have hrest : ∀ k, 478 ≤ k → k + 4 ≤ 510 → at32 (writeMbr boot persistent).bytes k = 0 := by
    intro k hlow hhigh
    rw [htable _ hhigh, writePartition,
      at32_splice_other (by rw [hfirst, Partition.entry_length]; omega) (by rw [Partition.entry_length]; omega), writePartition,
      at32_splice_other (by rw [hzero, Partition.entry_length]; omega) (by rw [Partition.entry_length]; omega),
      at32_replicate_zero]
  rw [listedPartitions, show List.range 4 = [0, 1, 2, 3] from rfl]
  simp only [List.map_cons, List.map_nil, Nat.zero_mul, Nat.one_mul, Nat.add_zero]
  rw [hboot 8 (by omega), hboot 12 (by omega), hpersistent 8 (by omega), hpersistent 12 (by omega),
    hrest _ (by omega) (by omega), hrest _ (by omega) (by omega), hrest _ (by omega) (by omega),
    hrest _ (by omega) (by omega), boot.entry_start, boot.entry_count, persistent.entry_start,
    persistent.entry_count]

-- Between the table and the first partition nobody owns anything.
theorem not_protected {sizeMiB : Nat} {d : Disk} (h : Image sizeMiB d) {lba : Nat} (hpos : 0 < lba)
    (hlba : lba < kPartitionAlignmentSectors) : ¬Protected (d 0) lba := by
  obtain ⟨boot, persistent, hlayout, hmbr⟩ := h.mbr
  rw [layoutPartitions] at hlayout
  split_ifs at hlayout
  obtain ⟨rfl, rfl⟩ := hlayout
  rintro (hzero | ⟨p, hp, hlow, hhigh⟩)
  · omega
  · rw [hmbr, listedPartitions_writeMbr] at hp
    simp only [List.mem_cons, List.not_mem_nil, or_false] at hp
    unfold kPartitionAlignmentSectors at hlba
    rcases hp with rfl | rfl | rfl | rfl
    · grind [kPartitionAlignmentSectors, uint32_eq_self]
    · rw [uint32_eq_self (by decide)] at hlow
      have : 2048 ≤ kPartitionAlignmentSectors + uint32 (kBootPartitionMiB * 1024 * 1024) /
          kBytesPerSector := by decide
      omega
    · omega
    · omega

end Mbr

end Wirth.Toolchain.EfiImage

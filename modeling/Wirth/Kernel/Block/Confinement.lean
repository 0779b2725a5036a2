import Mathlib.Data.UInt
import Wirth.Kernel.Block.Devices

namespace Wirth.Kernel.Block

open Wirth.Lib

def withContents (drivers : Nat → Driver) (contents : Nat → UInt64 → Option Sector) : Nat → Driver :=
  fun id => { drivers id with sector := contents id }

-- The tables after drivers have registered their disks and registered devices have been scanned, in
-- any order. Between two scans the contents of the disks may change.
inductive Reached (drivers : Nat → Driver) : Blocks → List Registration → Prop where
  | start : Reached drivers .empty []
  | register {st st' : Blocks} {regs : List Registration} (id : Nat) (h : Reached drivers st regs)
      (hst : blockRegisterDevice st (.disk id) = some st') : Reached drivers st' regs
  | scan {st : Blocks} {regs : List Registration} {j : Fin 8} {base : Pointer}
      (contents : Nat → UInt64 → Option Sector) (h : Reached drivers st regs)
      (hbase : st.devices j = some base) :
      Reached drivers (scanMbrPartitions (withContents drivers contents) base st).1
        (regs ++ (scanMbrPartitions (withContents drivers contents) base st).2)

def Blocks.Has (st : Blocks) (dev : Pointer) : Prop := ∃ j, st.devices j = some dev

-- Every partition that has a device has the record of its entry, and no other record is in use.
structure Sound (drivers : Nat → Driver) (st : Blocks) (regs : List Registration) : Prop where
  toRecord : ∀ r ∈ regs, st.partitions r.slot = r.toRecord (st.device drivers r.base)
  listed : ∀ r ∈ regs, Listed r.mbr r.index
  based : ∀ r ∈ regs, st.Has r.base
  used : ∀ slot, (st.partitions slot).used = true → ∃ r ∈ regs, r.slot = slot
  registered : ∀ slot, st.Has (.partition slot) → ∃ r ∈ regs, r.slot = slot

section Steps

variable {drivers : Nat → Driver} {st st' : Blocks} {regs : List Registration}

theorem blockRegisterDevice_eq_some {dev : Pointer} : blockRegisterDevice st dev = some st' ↔
    ∃ i, firstSlot Option.isNone st.devices = some i ∧
      st' = { st with devices := Function.update st.devices i (some dev) } := by
  rw [blockRegisterDevice, Option.map_eq_some_iff]
  simp only [eq_comm]

theorem has_of_register {dev other : Pointer} (h : blockRegisterDevice st dev = some st') :
    st'.Has other ↔ other = dev ∨ st.Has other := by
  obtain ⟨i, hfree, rfl⟩ := blockRegisterDevice_eq_some.mp h
  have hi : st.devices i = none := by simpa using firstSlot_eq_some hfree
  constructor
  · rintro ⟨j, hj⟩
    rcases update_eq_some hj with ⟨-, hdev⟩ | ⟨-, hold⟩
    · exact .inl (Option.some.inj hdev).symm
    · exact .inr ⟨j, hold⟩
  · rintro (rfl | ⟨j, hj⟩)
    · exact ⟨i, Function.update_self ..⟩
    · refine ⟨j, ?_⟩
      grind

theorem register_partitions {dev : Pointer} (h : blockRegisterDevice st dev = some st') :
    st'.partitions = st.partitions := by
  obtain ⟨i, -, rfl⟩ := blockRegisterDevice_eq_some.mp h
  rfl

theorem device_congr (h : st'.partitions = st.partitions) (dev : Pointer) :
    st'.device drivers dev = st.device drivers dev := by
  cases dev with
  | disk id => rfl
  | partition slot => exact congrArg PartitionRecord.device (congrFun h slot)

theorem withContents_self : withContents drivers (fun id => (drivers id).sector) = drivers := rfl

theorem device_withContents (contents : Nat → UInt64 → Option Sector) (dev : Pointer) :
    st.device (withContents drivers contents) dev = st.device drivers dev := by
  cases dev <;> rfl

theorem Sound.withContents_iff (contents : Nat → UInt64 → Option Sector) :
    Sound (withContents drivers contents) st regs ↔ Sound drivers st regs := by
  constructor
  all_goals
    intro h
    refine ⟨fun r hr => ?_, h.listed, h.based, h.used, h.registered⟩
    rw [h.toRecord r hr, device_withContents]

theorem sound_empty (drivers : Nat → Driver) : Sound drivers .empty [] := by
  refine ⟨by rintro r ⟨⟩, by rintro r ⟨⟩, by rintro r ⟨⟩, fun slot h => ?_, ?_⟩
  · cases h
  · rintro slot ⟨j, hj⟩
    cases hj

theorem Sound.used_of_has (h : Sound drivers st regs) {slot : Fin 8} (hhas : st.Has (.partition slot)) :
    (st.partitions slot).used = true := by
  obtain ⟨r, hr, rfl⟩ := h.registered slot hhas
  rw [h.toRecord r hr]
  rfl

theorem setPartition_self (slot : Fin 8) (rec_ : PartitionRecord) :
    (st.setPartition slot rec_).partitions slot = rec_ := Function.update_self ..

theorem setPartition_other {slot other : Fin 8} (h : other ≠ slot) (rec_ : PartitionRecord) :
    (st.setPartition slot rec_).partitions other = st.partitions other := Function.update_of_ne h ..

theorem Sound.device_setPartition (h : Sound drivers st regs) {slot : Fin 8} {rec_ : PartitionRecord}
    (hfree : (st.partitions slot).used = false) {dev : Pointer} (hdev : st.Has dev) :
    (st.setPartition slot rec_).device drivers dev = st.device drivers dev := by
  cases dev with
  | disk id => rfl
  | partition other =>
    have hne : other ≠ slot := by
      rintro rfl
      rw [h.used_of_has hdev] at hfree
      cases hfree
    exact congrArg PartitionRecord.device (setPartition_other hne rec_)

theorem Sound.setPartition_toRecord (h : Sound drivers st regs) {slot : Fin 8} {rec_ : PartitionRecord}
    (hfree : (st.partitions slot).used = false) {r : Registration} (hr : r ∈ regs) :
    (st.setPartition slot rec_).partitions r.slot =
      r.toRecord ((st.setPartition slot rec_).device drivers r.base) := by
  have hne : r.slot ≠ slot := by
    rintro rfl
    rw [h.toRecord r hr] at hfree
    cases hfree
  rw [h.device_setPartition hfree (h.based r hr), ← h.toRecord r hr, setPartition_other hne]

theorem Sound.register_disk (h : Sound drivers st regs) {id : Nat}
    (hst : blockRegisterDevice st (.disk id) = some st') : Sound drivers st' regs := by
  have hparts := register_partitions hst
  refine ⟨fun r hr => ?_, h.listed, fun r hr => ?_, fun slot hslot => ?_, fun slot hslot => ?_⟩
  · rw [hparts, h.toRecord r hr, device_congr hparts]
  · exact (has_of_register hst).mpr (.inr (h.based r hr))
  · rw [hparts] at hslot
    exact h.used slot hslot
  · rcases (has_of_register hst).mp hslot with hdisk | hold
    · cases hdisk
    · exact h.registered slot hold

theorem Sound.register_partition (h : Sound drivers st regs) {r : Registration}
    (hbase : st.Has r.base) (hlisted : Listed r.mbr r.index)
    (hfree : (st.partitions r.slot).used = false)
    (hst : blockRegisterDevice (st.setPartition r.slot (r.toRecord (st.device drivers r.base)))
      (.partition r.slot) = some st') : Sound drivers st' (regs ++ [r]) := by
  have hparts := register_partitions hst
  have hhas : ∀ dev, st.Has dev → st'.Has dev := fun dev hdev => (has_of_register hst).mpr (.inr hdev)
  refine ⟨fun q hq => ?_, fun q hq => ?_, fun q hq => ?_, fun slot hslot => ?_, fun slot hslot => ?_⟩
  · rw [hparts, device_congr hparts]
    rcases List.mem_append.mp hq with hold | hnew
    · exact h.setPartition_toRecord hfree hold
    · rw [List.mem_singleton.mp hnew, h.device_setPartition hfree hbase, setPartition_self]
  · rcases List.mem_append.mp hq with hold | hnew
    · exact h.listed q hold
    · rwa [List.mem_singleton.mp hnew]
  · rcases List.mem_append.mp hq with hold | hnew
    · exact hhas _ (h.based q hold)
    grind
  · by_cases hr : slot = r.slot
    · grind
    · rw [hparts, setPartition_other hr] at hslot
      obtain ⟨q, hq, hslot⟩ := h.used slot hslot
      exact ⟨q, List.mem_append_left _ hq, hslot⟩
  · rcases (has_of_register hst).mp hslot with hnew | hold
    · grind
    · obtain ⟨q, hq, hslot⟩ := h.registered slot hold
      exact ⟨q, List.mem_append_left _ hq, hslot⟩

theorem Sound.give_back (h : Sound drivers st regs) {slot : Fin 8} {rec_ : PartitionRecord}
    (hfree : (st.partitions slot).used = false) :
    Sound drivers (st.setPartition slot { rec_ with used := false }) regs := by
  refine ⟨fun r hr => h.setPartition_toRecord hfree hr, h.listed, h.based, fun other hother => ?_,
    h.registered⟩
  by_cases hslot : other = slot
  · grind [setPartition_self]
  · rw [setPartition_other hslot] at hother
    exact h.used other hother

-- A scan fills free records one after another. What holds of the tables and the registrations is
-- kept if it is kept when a device gets registered and when its record is given back.
section Rule

variable {P : Blocks → List Registration → Prop} {base : Pointer}
  (hregister : ∀ st st' regs mbr i slot, P st regs → Listed mbr i →
    (st.partitions slot).used = false →
    blockRegisterDevice (st.setPartition slot
      ((⟨base, mbr, i, slot⟩ : Registration).toRecord (st.device drivers base))) (.partition slot) =
        some st' → P st' (regs ++ [⟨base, mbr, i, slot⟩]))
  (hback : ∀ st regs slot (rec_ : PartitionRecord), P st regs → (st.partitions slot).used = false →
    P (st.setPartition slot { rec_ with used := false }) regs)

include hregister hback

theorem scanEntries_rule {mbr : Sector} {indices : List Nat} (h : P st regs) :
    P (scanEntries drivers base mbr indices st).1
      (regs ++ (scanEntries drivers base mbr indices st).2) := by
  induction indices generalizing st regs with
  | nil => simpa [scanEntries] using h
  | cons i rest ih =>
    rw [scanEntries]
    by_cases hlisted : Listed mbr i
    · rw [if_neg (not_not_intro hlisted)]
      grind [findFreeSlot, firstSlot_eq_some, blockRegisterDevice]
    · rw [if_pos hlisted]
      exact ih h

theorem scanMbrPartitions_rule (h : P st regs) :
    P (scanMbrPartitions drivers base st).1 (regs ++ (scanMbrPartitions drivers base st).2) := by
  have hsame : P (st, ([] : List Registration)).1 (regs ++ (st, ([] : List Registration)).2) := by
    simpa using h
  rw [scanMbrPartitions]
  by_cases hread : (st.device drivers base).readSectors.isNone = true
  · rwa [if_pos hread]
  · rw [if_neg hread]
    cases st.readSector drivers base 0 with
    | none => exact hsame
    | some mbr =>
      by_cases hsigned : Signed mbr
      · simp only [if_pos hsigned]
        exact scanEntries_rule hregister hback h
      · simpa only [if_neg hsigned] using hsame

end Rule

theorem scanMbrPartitions_sound {base : Pointer} (h : Sound drivers st regs) (hbase : st.Has base) :
    Sound drivers (scanMbrPartitions drivers base st).1
      (regs ++ (scanMbrPartitions drivers base st).2) := by
  refine (@scanMbrPartitions_rule _ _ _ (fun st regs => Sound drivers st regs ∧ st.Has base) _ ?_ ?_
    ⟨h, hbase⟩).1
  · rintro st st' regs mbr i slot ⟨hsound, hhas⟩ hlisted hfree hst
    exact ⟨@Sound.register_partition _ _ _ _ hsound ⟨base, mbr, i, slot⟩ hhas hlisted hfree hst,
      (has_of_register hst).mpr (.inr hhas)⟩
  · rintro st regs slot rec_ ⟨hsound, hhas⟩ hfree
    exact ⟨hsound.give_back hfree, hhas⟩

theorem Reached.sound (h : Reached drivers st regs) : Sound drivers st regs := by
  induction h with
  | start => exact sound_empty drivers
  | register id _ hst ih => exact ih.register_disk hst
  | scan contents _ hbase ih =>
    exact (Sound.withContents_iff contents).mp
      (scanMbrPartitions_sound ((Sound.withContents_iff contents).mpr ih) ⟨_, hbase⟩)

end Steps

-- The sectors that a request covers, and those of an entry of the table.
def Request.Covers (q : Request) (sector : Nat) : Prop :=
  q.lba.toNat ≤ sector ∧ sector < q.lba.toNat + q.count.toNat

def Registration.Owns (r : Registration) (sector : Nat) : Prop :=
  r.start ≤ sector ∧ sector < r.start + r.sectors

-- What is passed on stays within the entry, and nothing is passed on that does not lie in it.
structure Confined (drivers : Nat → Driver) (st : Blocks) (r : Registration) (access : Access)
    (lba : UInt64) (count : UInt32) : Prop where
  covers : ∀ q, st.forwards drivers (.partition r.slot) lba count access = some q →
    q.base = r.base ∧ ∀ sector, q.Covers sector → r.Owns sector
  refuses : ¬lba.toNat + count.toNat ≤ r.sectors →
    st.forwards drivers (.partition r.slot) lba count access = none

def Blocks.Offers (st : Blocks) (drivers : Nat → Driver) (dev : Pointer) : Access → Prop
  | .read => True
  | .write => (st.device drivers dev).writeSectors.isSome = true

section Requests

variable {drivers : Nat → Driver} {st : Blocks} {regs : List Registration} {r : Registration}
  {access : Access} {lba : UInt64} {count : UInt32}

theorem Registration.start_lt (r : Registration) : r.start < 2 ^ 32 := at32_lt _ _

theorem Registration.sectors_lt (r : Registration) : r.sectors < 2 ^ 32 := at32_lt _ _

theorem toNat_sum : (lba + count.toUInt64).toNat = (lba.toNat + count.toNat) % 2 ^ 64 := by
  rw [UInt64.toNat_add, UInt32.toNat_toUInt64]

theorem not_sum_gt : ¬lba + count.toUInt64 > UInt64.ofNat r.sectors ↔
    (lba.toNat + count.toNat) % 2 ^ 64 ≤ r.sectors := by
  have := r.sectors_lt
  rw [gt_iff_lt, UInt64.not_lt, UInt64.le_iff_toNat_le, toNat_sum,
    UInt64.toNat_ofNat_of_lt' (by simp only [UInt64.size]; omega)]

variable (h : Sound drivers st regs) (hr : r ∈ regs)

include h hr

theorem Sound.readPartitionImpl_eq_some {q : Request} :
    readPartitionImpl st r.slot lba count = some q ↔
      (lba.toNat + count.toNat) % 2 ^ 64 ≤ r.sectors ∧
        q = ⟨r.base, UInt64.ofNat r.start + lba, count⟩ := by
  rw [readPartitionImpl, h.toRecord r hr, ← not_sum_gt]
  simp only [Registration.toRecord, Bool.not_true, Bool.false_eq_true, if_false]
  simp [eq_comm]

theorem Sound.writePartitionImpl_eq_some {q : Request} :
    writePartitionImpl drivers st r.slot lba count = some q ↔
      (st.device drivers r.base).writeSectors.isSome = true ∧
      (lba.toNat + count.toNat) % 2 ^ 64 ≤ r.sectors ∧
        q = ⟨r.base, UInt64.ofNat r.start + lba, count⟩ := by
  rw [writePartitionImpl, h.toRecord r hr, ← not_sum_gt]
  simp only [Registration.toRecord, Bool.not_true, Bool.false_eq_true, if_false]
  by_cases hsum : lba + count.toUInt64 > UInt64.ofNat r.sectors
  · simp [hsum]
  · cases (st.device drivers r.base).writeSectors <;> simp [hsum, eq_comm]

-- When a registered partition passes a request on, and which one.
theorem Sound.forwards_eq_some {q : Request} :
    st.forwards drivers (.partition r.slot) lba count access = some q ↔
      st.Offers drivers r.base access ∧ (lba.toNat + count.toNat) % 2 ^ 64 ≤ r.sectors ∧
        q = ⟨r.base, UInt64.ofNat r.start + lba, count⟩ := by
  have hdev : st.device drivers (.partition r.slot) = (r.toRecord (st.device drivers r.base)).device :=
    congrArg PartitionRecord.device (h.toRecord r hr)
  cases access with
  | read =>
    rw [Blocks.forwards, hdev]
    exact (h.readPartitionImpl_eq_some hr).trans (by simp [Blocks.Offers])
  | write =>
    rw [Blocks.forwards, hdev, Blocks.Offers]
    refine Iff.trans ?_ (h.writePartitionImpl_eq_some hr)
    cases hwrite : (st.device drivers r.base).writeSectors with
    | none => simp [Registration.toRecord, hwrite, h.writePartitionImpl_eq_some hr]
    | some handler => simp [Registration.toRecord, hwrite, kWriteFns]

theorem Sound.forwards_eq_none :
    st.forwards drivers (.partition r.slot) lba count access = none ↔
      ¬(st.Offers drivers r.base access ∧ (lba.toNat + count.toNat) % 2 ^ 64 ≤ r.sectors) := by
  rw [Option.eq_none_iff_forall_ne_some]
  simp only [ne_eq, h.forwards_eq_some hr]
  grind

theorem Sound.confined_of_lt (hsum : lba.toNat + count.toNat < 2 ^ 64) :
    Confined drivers st r access lba count := by
  have hstart := r.start_lt
  have hsectors := r.sectors_lt
  constructor
  · intro q hq
    obtain ⟨-, hle, rfl⟩ := (h.forwards_eq_some hr).mp hq
    have hlba : (UInt64.ofNat r.start + lba).toNat = r.start + lba.toNat := by
      grind [UInt64.toNat_add, UInt64.toNat_ofNat_of_lt']
    refine ⟨rfl, fun sector hcovers => ?_⟩
    obtain ⟨hlow, hhigh⟩ := hcovers
    simp only [hlba] at hlow hhigh
    exact ⟨by omega, by omega⟩
  · intro hout
    rw [h.forwards_eq_none hr, Nat.mod_eq_of_lt hsum]
    exact fun hoffer => hout hoffer.2

end Requests

-- A registered partition keeps to its entry, unless the sum of the first sector and the count wraps
-- around to a number that is not beyond the end.
theorem partition_confined_iff {drivers : Nat → Driver} {st : Blocks} {regs : List Registration}
    (h : Reached drivers st regs) {j slot : Fin 8} (hslot : st.devices j = some (.partition slot)) :
    ∃ r ∈ regs, r.slot = slot ∧ Listed r.mbr r.index ∧
      ∀ access lba count, Confined drivers st r access lba count ↔
        ¬(2 ^ 64 ≤ lba.toNat + count.toNat ∧ lba.toNat + count.toNat - 2 ^ 64 ≤ r.sectors ∧
          st.Offers drivers r.base access) := by
  obtain ⟨r, hr, rfl⟩ := h.sound.registered slot ⟨j, hslot⟩
  refine ⟨r, hr, rfl, h.sound.listed r hr, fun access lba count => ?_⟩
  by_cases hsum : lba.toNat + count.toNat < 2 ^ 64
  · refine iff_of_true (h.sound.confined_of_lt hr hsum) ?_
    omega
  · -- Such a request is never inside the partition.
    have hmod : (lba.toNat + count.toNat) % 2 ^ 64 = lba.toNat + count.toNat - 2 ^ 64 := by
      have := lba.toNat_lt
      have := count.toNat_lt
      omega
    have hnone := @Sound.forwards_eq_none _ _ _ _ access lba count h.sound hr
    rw [hmod] at hnone
    constructor
    · rintro hconfined ⟨-, hle, hoffers⟩
      have hout : ¬lba.toNat + count.toNat ≤ r.sectors := by
        have := r.sectors_lt
        omega
      exact hnone.mp (hconfined.refuses hout) ⟨hoffers, hle⟩
    · intro hno
      have hrefused := hnone.mpr fun hyes => hno ⟨not_lt.mp hsum, hyes.2, hyes.1⟩
      refine ⟨fun q hq => ?_, fun _ => hrefused⟩
      rw [hrefused] at hq
      cases hq

def oneEntry : Sector := .ofBytes (List.replicate 450 0 ++ [0x83, 0, 0, 0, 0, 8, 0, 0, 100, 0, 0, 0] ++
  List.replicate 48 0 ++ [0x55, 0xAA])

def oneDisk : Nat → Driver := fun _ =>
  ⟨some (lit "usb0"), 512, 4096, true, true, fun lba => some (if lba = 0 then oneEntry else .zero)⟩

def oneDiskBlocks : Blocks :=
  { Blocks.empty with devices := Function.update Blocks.empty.devices 0 (some (.disk 0)) }

def oneDiskScanned : Blocks × List Registration := scanMbrPartitions oneDisk (.disk 0) oneDiskBlocks

theorem oneDisk_reached : Reached oneDisk oneDiskScanned.1 oneDiskScanned.2 := by
  have hregistered : Reached oneDisk oneDiskBlocks [] :=
    .register 0 .start (blockRegisterDevice_eq_some.mpr ⟨0, by decide, rfl⟩)
  have hdisk : oneDiskBlocks.devices 0 = some (.disk 0) := rfl
  have hscanned := hregistered.scan (fun id => (oneDisk id).sector) hdisk
  rwa [List.nil_append, withContents_self] at hscanned

theorem oneDisk_partition : oneDiskScanned.1.devices 1 = some (.partition 0) ∧
    oneDiskScanned.2 = [⟨.disk 0, oneEntry, 0, 0⟩] := by decide +kernel

theorem last_sector_confined : ∃ r ∈ oneDiskScanned.2, r.slot = 0 ∧
    Confined oneDisk oneDiskScanned.1 r .read 99 1 := by
  obtain ⟨r, hr, hslot, -, hconfined⟩ := partition_confined_iff oneDisk_reached oneDisk_partition.1
  exact ⟨r, hr, hslot, (hconfined .read 99 1).mpr fun hwraps => absurd hwraps.1 (by decide)⟩

-- One sector at 2^64 - 1 is the sector before the partition.
theorem request_escapes : ∃ drivers st regs r, Reached drivers st regs ∧ r ∈ regs ∧
    st.Has (.partition r.slot) ∧ r.Owns 2048 ∧ ¬r.Owns 2047 ∧
    st.forwards drivers (.partition r.slot) (2 ^ 64 - 1) 1 .read = some ⟨.disk 0, 2047, 1⟩ ∧
    st.forwards drivers (.partition r.slot) (2 ^ 64 - 1) 1 .write = some ⟨.disk 0, 2047, 1⟩ := by
  refine ⟨oneDisk, oneDiskScanned.1, oneDiskScanned.2, ⟨.disk 0, oneEntry, 0, 0⟩, oneDisk_reached, ?_,
    ⟨1, oneDisk_partition.1⟩, ?_, ?_, ?_, ?_⟩
  · rw [oneDisk_partition.2]
    exact List.mem_singleton.mpr rfl
  · constructor <;> decide +kernel
  · rintro ⟨hlow, -⟩
    revert hlow
    decide +kernel
  · decide +kernel
  · decide +kernel

end Wirth.Kernel.Block

import Wirth.Lib.Device
import Wirth.Lib.Little
import Wirth.Lib.Text
import Wirth.Lib.Slots

namespace Wirth.Kernel.Block

open Wirth.Lib

-- A device is known by its address: that of a driver's device, or of the one in a partition record.
inductive Pointer where
  | disk (id : Nat)
  | partition (slot : Fin 8)
  deriving DecidableEq

inductive Handler where
  | driver (id : Nat)
  | partition (slot : Fin 8)
  deriving DecidableEq

structure BlockDevice where
  name : Option Str
  blockSize : Nat
  blockCount : Nat
  readSectors : Option Handler
  writeSectors : Option Handler
  deriving DecidableEq

structure PartitionRecord where
  used : Bool
  device : BlockDevice
  base : Option Pointer
  startLba : UInt64
  sectorCount : UInt64
  deriving DecidableEq

structure Blocks where
  devices : Fin 8 → Option Pointer
  partitions : Fin 8 → PartitionRecord

def Blocks.empty : Blocks where
  devices _ := none
  partitions _ := ⟨false, ⟨none, 0, 0, none, none⟩, none, 0, 0⟩

-- What a driver says about its disk, and what a read of one sector brings if it succeeds.
structure Driver where
  name : Option Str
  blockSize : Nat
  blockCount : Nat
  reads : Bool
  writes : Bool
  sector : UInt64 → Option Sector

def Driver.device (driver : Driver) (id : Nat) : BlockDevice where
  name := driver.name
  blockSize := driver.blockSize
  blockCount := driver.blockCount
  readSectors := if driver.reads then some (.driver id) else none
  writeSectors := if driver.writes then some (.driver id) else none

def blockRegisterDevice (st : Blocks) (dev : Pointer) : Option Blocks :=
  (firstSlot Option.isNone st.devices).map fun i =>
    { st with devices := Function.update st.devices i (some dev) }

section Requests

variable (drivers : Nat → Driver) (st : Blocks)

def Blocks.device : Pointer → BlockDevice
  | .disk id => (drivers id).device id
  | .partition slot => (st.partitions slot).device

structure Request where
  base : Pointer
  lba : UInt64
  count : UInt32
  deriving DecidableEq

def readPartitionImpl (slot : Fin 8) (lba : UInt64) (count : UInt32) : Option Request :=
  let rec_ := st.partitions slot
  match rec_.base with
  | none => none
  | some base =>
      if !rec_.used then none
      else if lba + count.toUInt64 > rec_.sectorCount then none
      else some ⟨base, rec_.startLba + lba, count⟩

def writePartitionImpl (slot : Fin 8) (lba : UInt64) (count : UInt32) : Option Request :=
  let rec_ := st.partitions slot
  match rec_.base with
  | none => none
  | some base =>
      if !rec_.used then none
      else if lba + count.toUInt64 > rec_.sectorCount then none
      else if (st.device drivers base).writeSectors.isNone then none
      else some ⟨base, rec_.startLba + lba, count⟩

def kReadFns (slot : Fin 8) : Handler := .partition slot

def kWriteFns (slot : Fin 8) : Handler := .partition slot

inductive Access where
  | read
  | write
  deriving DecidableEq

-- What a call of a device's function passes on, if the device is a partition and does not refuse.
def Blocks.forwards (dev : Pointer) (lba : UInt64) (count : UInt32) : Access → Option Request
  | .read =>
      match (st.device drivers dev).readSectors with
      | some (.partition slot) => readPartitionImpl st slot lba count
      | _ => none
  | .write =>
      match (st.device drivers dev).writeSectors with
      | some (.partition slot) => writePartitionImpl drivers st slot lba count
      | _ => none

-- The disk and the sector that a read of one sector comes to in the end. A partition may lie on
-- another one; eight of them and a disk are the longest chain.
def Blocks.locate : Nat → Pointer → UInt64 → Option (Nat × UInt64)
  | 0, _, _ => none
  | fuel + 1, dev, lba =>
      match (st.device drivers dev).readSectors with
      | none => none
      | some (.driver id) => some (id, lba)
      | some (.partition slot) =>
          match readPartitionImpl st slot lba 1 with
          | none => none
          | some r => Blocks.locate fuel r.base r.lba

def Blocks.readSector (dev : Pointer) (lba : UInt64) : Option Sector :=
  (st.locate drivers 9 dev lba).bind fun place => (drivers place.1).sector place.2

end Requests

def entryType (mbr : Sector) (i : Nat) : UInt8 := mbr.bytes.getD (446 + i * 16 + 4) 0

def entryStart (mbr : Sector) (i : Nat) : Nat := at32 mbr.bytes (446 + i * 16 + 8)

def entrySectors (mbr : Sector) (i : Nat) : Nat := at32 mbr.bytes (446 + i * 16 + 12)

def Signed (mbr : Sector) : Prop := mbr.bytes.getD 510 0 = 0x55 ∧ mbr.bytes.getD 511 0 = 0xAA

instance (mbr : Sector) : Decidable (Signed mbr) := inferInstanceAs (Decidable (_ ∧ _))

def Listed (mbr : Sector) (i : Nat) : Prop := entryType mbr i ≠ 0 ∧ entrySectors mbr i ≠ 0

instance (mbr : Sector) (i : Nat) : Decidable (Listed mbr i) := inferInstanceAs (Decidable (_ ∧ _))

def findFreeSlot (st : Blocks) : Option (Fin 8) := firstSlot (fun rec_ => !rec_.used) st.partitions

def copyText (src : Str) (maxSize : Nat) : Str := src.take (maxSize - 1)

def buildPartitionName (baseName : Option Str) (index outSize : Nat) : Str :=
  let base := baseName.getD []
  let out := if base ≠ [] then copyText base outSize else copyText (lit "disk") outSize
  if out.length + 3 ≥ outSize then out
  else if index + 1 < 10 then out ++ [chr 'p', UInt8.ofNat (48 + (index + 1))]
  else out ++ [chr 'p', UInt8.ofNat (48 + (index + 1) / 10 % 10), UInt8.ofNat (48 + (index + 1) % 10)]

-- A partition that has got a device: the entry of the table it comes from and its record.
structure Registration where
  base : Pointer
  mbr : Sector
  index : Nat
  slot : Fin 8
  deriving DecidableEq

def Registration.start (r : Registration) : Nat := entryStart r.mbr r.index

def Registration.sectors (r : Registration) : Nat := entrySectors r.mbr r.index

def Registration.toRecord (r : Registration) (base : BlockDevice) : PartitionRecord where
  used := true
  device :=
    { name := some (buildPartitionName base.name r.index 16)
      blockSize := base.blockSize
      blockCount := r.sectors
      readSectors := some (kReadFns r.slot)
      writeSectors := if base.writeSectors.isSome then some (kWriteFns r.slot) else none }
  base := some r.base
  startLba := UInt64.ofNat r.start
  sectorCount := UInt64.ofNat r.sectors

def Blocks.setPartition (st : Blocks) (slot : Fin 8) (rec_ : PartitionRecord) : Blocks :=
  { st with partitions := Function.update st.partitions slot rec_ }

section Scan

variable (drivers : Nat → Driver)

-- The loop over the entries. It ends early when all records are in use.
def scanEntries (base : Pointer) (mbr : Sector) : List Nat → Blocks → Blocks × List Registration
  | [], st => (st, [])
  | i :: rest, st =>
      if ¬Listed mbr i then scanEntries base mbr rest st
      else
        match findFreeSlot st with
        | none => (st, [])
        | some slot =>
            let r : Registration := ⟨base, mbr, i, slot⟩
            let rec_ := r.toRecord (st.device drivers base)
            match blockRegisterDevice (st.setPartition slot rec_) (.partition slot) with
            | some st =>
                let rest := scanEntries base mbr rest st
                (rest.1, r :: rest.2)
            | none => scanEntries base mbr rest (st.setPartition slot { rec_ with used := false })

def scanMbrPartitions (base : Pointer) (st : Blocks) : Blocks × List Registration :=
  if (st.device drivers base).readSectors.isNone then (st, [])
  else
    match st.readSector drivers base 0 with
    | none => (st, [])
    | some mbr => if Signed mbr then scanEntries drivers base mbr [0, 1, 2, 3] st else (st, [])

structure Visit where
  blocks : Blocks
  scanned : List Pointer
  registered : List Registration

-- The loop of `block_visit_devices` with the visitor of `kernel_main`. A slot is looked at when its
-- turn comes.
def visitDevices : List (Fin 8) → Blocks → Visit
  | [], st => ⟨st, [], []⟩
  | i :: rest, st =>
      match st.devices i with
      | none => visitDevices rest st
      | some dev =>
          let found := scanMbrPartitions drivers dev st
          let rest := visitDevices rest found.1
          ⟨rest.blocks, dev :: rest.scanned, found.2 ++ rest.registered⟩

def scanAtBoot (st : Blocks) : Visit := visitDevices drivers (List.finRange 8) st

end Scan

end Wirth.Kernel.Block

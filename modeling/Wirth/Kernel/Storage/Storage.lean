import Wirth.Lib.Device
import Wirth.Lib.Little
import Wirth.Lib.Text

namespace Wirth.Kernel.Storage

open Wirth.Lib

def superblockLba : Nat := 1

def indexLba : Nat := 2

def dataStartLba : Nat := 10

def magicNumber : Nat := 0x484F4B55

structure Superblock where
  magic : Nat
  nextFreeLba : Nat
  reserved : List UInt8
  deriving DecidableEq

def Superblock.sector (sb : Superblock) : Sector :=
  .ofBytes (le32 sb.magic ++ (le32 sb.nextFreeLba ++ sb.reserved))

def Superblock.ofSector (sector : Sector) : Superblock :=
  ⟨at32 sector.bytes 0, at32 sector.bytes 4, sector.bytes.drop 8⟩

structure StorageState where
  sb : Superblock
  ready : Bool
  deriving DecidableEq

def StorageState.initial : StorageState := ⟨⟨0, 0, List.replicate 504 0⟩, false⟩

structure StorageHandle where
  startLba : Nat
  sectors : Nat
  deriving DecidableEq

def Superblock.fresh : Superblock := ⟨magicNumber, dataStartLba, List.replicate 504 0⟩

-- A device may be absent. Whether the fresh superblock could be written is not looked at.
def storageInit (st : StorageState) (present : Bool) : Io StorageState :=
  if present = false then
    .done ⟨{ st.sb with magic := 0, nextFreeLba := dataStartLba }, false⟩
  else do
    match ← Io.readSector superblockLba with
    | none => .done ⟨{ st.sb with magic := 0, nextFreeLba := dataStartLba }, true⟩
    | some sector =>
        let sb := Superblock.ofSector sector
        if sb.magic ≠ magicNumber ∨ sb.nextFreeLba < dataStartLba then do
          let _ ← Io.writeSector superblockLba Superblock.fresh.sector
          .done ⟨.fresh, true⟩
        else .done ⟨sb, true⟩

-- The loop over the sectors of the data, the last of which is filled up with zeros.
def writeData (start : Nat) : Nat → Nat → List UInt8 → Io Bool
  | _, 0, _ => .done true
  | i, left + 1, data => do
      if (← Io.writeSector (uint32 (start + i)) (.ofBytes data)) = false then .done false
      else writeData start (i + 1) left (data.drop 512)

def sectorCount (size : Nat) : Nat := uint32 (size + 511) / 512

-- No data is a null pointer. The superblock in memory moves on before it is written.
def storageWrite (st : StorageState) (data : Option (List UInt8)) : Io (StorageState × Option StorageHandle) :=
  match data with
  | none => .done (st, none)
  | some data =>
      if data = [] then .done (st, none)
      else do
        let start := st.sb.nextFreeLba
        let sectors := sectorCount data.length
        if (← writeData start 0 sectors data) = false then .done (st, none)
        else
          let sb := { st.sb with nextFreeLba := uint32 (start + sectors) }
          if (← Io.writeSector superblockLba sb.sector) = false then .done ({ st with sb := sb }, none)
          else .done ({ st with sb := sb }, some ⟨start, sectors⟩)

def storageRead (handle : StorageHandle) : Io (Option (List UInt8)) :=
  if handle.sectors = 0 then .done none else .readSectors handle.startLba handle.sectors

def storageReadRaw (startLba sectors : Nat) : Io (Option (List UInt8)) :=
  .readSectors startLba sectors

-- The end of the last entry, unless the entries run over the end of the sector.
def skipEntries (index : List UInt8) : Nat → Nat → Option Nat
  | 0, off => some off
  | count + 1, off =>
      if 512 < uint32 (off + 12) then none
      else
        let off := uint32 (off + uint32 (12 + at32 index off))
        if 512 < off then none else skipEntries index count off

def appendEntry (index : List UInt8) (off : Nat) (name : Str) (startLba sectors count : Nat) :
    List UInt8 :=
  let index := splice index off (le32 name.length ++ (le32 startLba ++ (le32 sectors ++ name)))
  splice index 0 (le32 (uint32 (count + 1)))

def storageAddIndexEntry (name : Str) (startLba sectors : Nat) : Io Bool := do
  let read ← storageReadRaw indexLba 1
  let index := read.getD (List.replicate 512 0)
  let count := at32 index 0
  match skipEntries index count 4 with
  | none => .done false
  | some off =>
      if 512 < off + (12 + name.length) then .done false
      else .writeSector indexLba (.ofBytes (appendEntry index off name startLba sectors count))

end Wirth.Kernel.Storage

import Wirth.Kernel.Fs.Operations
import Wirth.Lib.Device
import Wirth.Lib.Little

namespace Wirth.Kernel.Efifs

open Wirth.Lib Wirth.Kernel.Fs

abbrev ReadFn := Nat → Option Sector

structure Backend where
  present : Bool
  read : ReadFn

def selectBackend (usb ide : Backend) : Option (ReadFn × Sector) :=
  match if usb.present then usb.read 0 else none with
  | some sector => some (usb.read, sector)
  | none =>
      match if ide.present then ide.read 0 else none with
      | some sector => some (ide.read, sector)
      | none => none

-- Eleven bytes are compared. A literal with fewer counts its terminator.
def fat11Equal (entry : List UInt8) (expected11 : Str) : Bool :=
  (List.range 11).all fun i => entry.getD i 0 == expected11.getD i 0

structure Bpb where
  bytesPerSector : Nat
  sectorsPerCluster : Nat
  reservedSectors : Nat
  numFats : Nat
  rootEntryCount : Nat
  sectorsPerFat : Nat
  deriving DecidableEq

def Bpb.ofSector (sector : List UInt8) : Bpb where
  bytesPerSector := u16At sector 11
  sectorsPerCluster := (sector.getD 13 0).toNat
  reservedSectors := u16At sector 14
  numFats := (sector.getD 16 0).toNat
  rootEntryCount := u16At sector 17
  sectorsPerFat := u16At sector 22

namespace Bpb

variable (bpb : Bpb)

def rootDirSectors : Nat := (bpb.rootEntryCount * 32 + bpb.bytesPerSector - 1) / bpb.bytesPerSector

def firstRootDirSector : Nat := bpb.reservedSectors + bpb.numFats * bpb.sectorsPerFat

def firstDataSector : Nat := bpb.firstRootDirSector + bpb.rootDirSectors

def clusterSector (c : Nat) : Nat := bpb.firstDataSector + (c - 2) * bpb.sectorsPerCluster

end Bpb

def readRange (read : ReadFn) (failure : Str) : Nat → Nat → Except Str (List UInt8)
  | _, 0 => .ok []
  | lba, count + 1 =>
      match read lba with
      | none => .error failure
      | some sector => do
          let rest ← readRange read failure (lba + 1) count
          .ok (sector.bytes ++ rest)

-- The cluster of the directory `BOOT`, or zero. The arguments are how many entries are left and
-- their bytes.
def findBootDir : Nat → List UInt8 → Nat
  | 0, _ => 0
  | n + 1, e =>
      if e.getD 0 0 = 0x00 then 0
      else if e.getD 0 0 = 0xE5 then findBootDir n (e.drop 32)
      else if e.getD 11 0 &&& 0x10 = 0 then findBootDir n (e.drop 32)
      else if fat11Equal e (lit "BOOT       ") then u16At e 26
      else findBootDir n (e.drop 32)

def nextCluster (fat : List UInt8) (c : Nat) : Nat :=
  if fat.length ≤ c * 2 + 1 then 0xFFFF else u16At fat (c * 2)

-- First cluster and size of the seed, if one of the entries is its.
def searchSector : Nat → List UInt8 → Option (Nat × Nat)
  | 0, _ => none
  | n + 1, e =>
      if e.getD 0 0 = 0x00 then none
      else if e.getD 0 0 = 0xE5 then searchSector n (e.drop 32)
      else if e.getD 11 0 &&& 0x08 ≠ 0 then searchSector n (e.drop 32)
      else if fat11Equal e (lit "ROOTFSSEED") then some (u16At e 26, at32 e 28)
      else searchSector n (e.drop 32)

def searchCluster (read : ReadFn) : Nat → Nat → Except Str (Option (Nat × Nat))
  | _, 0 => .ok none
  | lba, left + 1 =>
      match read lba with
      | none => .error (lit "[efifs]: failed reading BOOT dir cluster\n")
      | some sector =>
          match searchSector 16 sector.bytes with
          | some found => .ok (some found)
          | none => searchCluster read (lba + 1) left

def searchChain (bpb : Bpb) (read : ReadFn) (fat : List UInt8) :
    Nat → Nat → Ended (Except Str (Option (Nat × Nat)))
  | 0, _ => .diverges
  | fuel + 1, c =>
      if 2 ≤ c ∧ c < 0xFFF8 then
        match searchCluster read (bpb.clusterSector c) bpb.sectorsPerCluster with
        | .error message => .returned (.error message)
        | .ok (some found) => .returned (.ok (some found))
        | .ok none =>
            if nextCluster fat c = 0xFFFF then .returned (.ok none)
            else searchChain bpb read fat fuel (nextCluster fat c)
      else .returned (.ok none)

-- The sectors of a cluster go to the end of what the buffer has so far. The last one may stand
-- for fewer bytes than it has.
def readCluster (read : ReadFn) (fileSize : Nat) : Nat → Nat → List UInt8 → Nat → Except Str (List UInt8 × Nat)
  | _, 0, buf, remaining => .ok (buf, remaining)
  | lba, left + 1, buf, remaining =>
      if remaining = 0 then .ok (buf, remaining)
      else
        match read lba with
        | none => .error (lit "[efifs]: failed reading file cluster\n")
        | some sector => readCluster read fileSize (lba + 1) left
            (splice buf (fileSize - remaining) sector.bytes) (remaining - min remaining 512)

def readChain (bpb : Bpb) (read : ReadFn) (fat : List UInt8) (fileSize : Nat) :
    Nat → Nat → List UInt8 → Nat → Ended (Except Str (List UInt8))
  | 0, _, _, _ => .diverges
  | fuel + 1, fc, buf, remaining =>
      if 2 ≤ fc ∧ fc < 0xFFF8 ∧ 0 < remaining then
        match readCluster read fileSize (bpb.clusterSector fc) bpb.sectorsPerCluster buf remaining with
        | .error message => .returned (.error message)
        | .ok (buf, remaining) =>
            if nextCluster fat fc = 0xFFFF then .returned (.ok buf)
            else readChain bpb read fat fileSize fuel (nextCluster fat fc) buf remaining
      else .returned (.ok buf)

-- There are `2 ^ 16` cluster numbers. A walk that has seen more of them does not end.
def maxSteps : Nat := 2 ^ 16 + 1

def rootBufSize : Nat := 16 * 1024

def fatBufSize : Nat := 16 * 1024

def fileBufSize : Nat := 32 * 1024

def readSeed (bpb : Bpb) (read : ReadFn) (fat fileBuf : List UInt8) (bootDirCluster : Nat) :
    Ended (Except Str (List UInt8 × Nat)) := do
  match ← searchChain bpb read fat maxSteps bootDirCluster with
  | .error message => .returned (.error message)
  | .ok none => .returned (.error (lit "[efifs]: ROOTFS.SEED not found in BOOT dir\n"))
  | .ok (some (fileStartCluster, fileSize)) =>
      if fileStartCluster = 0 then
        .returned (.error (lit "[efifs]: ROOTFS.SEED not found in BOOT dir\n"))
      else if fileBufSize < fileSize then .returned (.error (lit "[efifs]: file too large\n"))
      else
        match ← readChain bpb read fat fileSize maxSteps fileStartCluster fileBuf fileSize with
        | .error message => .returned (.error message)
        | .ok buf => .returned (.ok (buf, fileSize))

-- The buffer of the file before its lines are applied, and how much of it counts. The buffer
-- is static and starts with what an earlier call left.
def loadSeed (usb ide : Backend) (fileBuf : List UInt8) : Ended (Except Str (List UInt8 × Nat)) :=
  match selectBackend usb ide with
  | none => .returned (.error (lit "[efifs]: failed to read MBR/boot sector\n"))
  | some (read, sector) =>
      let bpb := Bpb.ofSector sector.bytes
      if bpb.bytesPerSector ≠ 512 then
        .returned (.error (lit "[efifs]: unsupported bytes/sector (only 512)\n"))
      else if rootBufSize < bpb.rootDirSectors * bpb.bytesPerSector then
        .returned (.error (lit "[efifs]: root dir too large\n"))
      else
        match readRange read (lit "[efifs]: failed reading root dir\n") bpb.firstRootDirSector
            bpb.rootDirSectors with
        | .error message => .returned (.error message)
        | .ok root =>
            let bootDirCluster := findBootDir bpb.rootEntryCount root
            if bootDirCluster = 0 then .returned (.error (lit "[efifs]: BOOT dir not found in root\n"))
            else if fatBufSize < bpb.sectorsPerFat * bpb.bytesPerSector then
              .returned (.error (lit "[efifs]: FAT too large\n"))
            else
              match readRange read (lit "[efifs]: failed reading FAT\n") bpb.reservedSectors
                  bpb.sectorsPerFat with
              | .error message => .returned (.error message)
              | .ok fat => readSeed bpb read fat fileBuf bootDirCluster

def isBlank (c : UInt8) : Bool := c = chr ' ' || c = chr '\t'

-- One line, as a string that a zero byte ends. The command is cut off at the first blank, and
-- only its first two letters are looked at.
def applyLine (line : Str) (fs : RamFs) : RamFs :=
  let cursor := (line.takeWhile (· ≠ 0)).dropWhile isBlank
  if cursor = [] ∨ cursor.head? = some (chr '#') then fs
  else
    let command := cursor.takeWhile fun c => !isBlank c
    let argument := (cursor.dropWhile fun c => !isBlank c).dropWhile isBlank
    if command.take 2 = lit "md" then (fs.md (some argument)).2 else fs

def applyBytes : List UInt8 → Str → RamFs → RamFs
  | [], line, fs => if line = [] then fs else applyLine line fs
  | ch :: rest, line, fs =>
      if ch = chr '\r' ∨ ch = chr '\n' then
        applyBytes rest [] (if line = [] then fs else applyLine line fs)
      else applyBytes rest (if line.length + 1 < 128 then line ++ [ch] else line) fs

-- Whether the seed was applied, or why not, and the file system afterwards, which may not be
-- there yet.
def tryLoadRootfsSeedFromEsp (usb ide : Backend) (fileBuf : List UInt8) (fs : Option RamFs) :
    Ended (Except Str Str × Option RamFs) := do
  match ← loadSeed usb ide fileBuf with
  | .error message => .returned (.error message, fs)
  | .ok (buf, fileSize) =>
      match fs with
      | none => .returned (.error (lit "[efifs]: ramfs not initialized\n"), none)
      | some fs => .returned (.ok (lit "[efifs]: ROOTFS.SEED applied from ESP\n"),
          some (applyBytes (buf.take fileSize) [] fs))

section Seeding

variable {old new : Inode} (st : RamFs) (k : Fin kMaxInodes)

def Kept (old new : Inode) : Prop := new = old ∨ old.used = false ∧ new.isDirectory = true

theorem Kept.trans {newer : Inode} (h : Kept old new) (hnew : Kept new newer) : Kept old newer := by
  grind [Kept]

theorem md_kept (path : Option Str) : Kept (st.inodes k) ((st.md path).2.inodes k) := by
  unfold RamFs.md
  split
  · exact .inl rfl
  rename_i normalized hnormal
  repeat' split
  any_goals exact .inl rfl
  rename_i i made hmade
  obtain ⟨hfree, rfl⟩ := createInode_some (normalizePath_normal hnormal).length hmade
  by_cases hk : k = i
  · subst hk
    exact .inr ⟨hfree, by simp⟩
  · exact .inl (setInode_of_ne hk)

theorem line_kept (line : Str) :
    Kept (st.inodes k) ((if line = [] then st else applyLine line st).inodes k) := by
  unfold applyLine
  dsimp only
  split_ifs
  any_goals exact .inl rfl
  exact md_kept st k _

-- Whatever stands in a seed, all that was there before stays, and all that is new is a directory.
theorem seed_only_adds (bytes : List UInt8) (line : Str) (st : RamFs) (k : Fin kMaxInodes) :
    Kept (st.inodes k) ((applyBytes bytes line st).inodes k) := by
  induction bytes generalizing line st with
  | nil => exact line_kept st k line
  | cons ch rest ih =>
    rw [applyBytes]
    by_cases hbreak : ch = chr '\r' ∨ ch = chr '\n'
    · rw [if_pos hbreak]
      exact (line_kept st k line).trans (ih _ _)
    · rw [if_neg hbreak]
      exact ih _ st

end Seeding

end Wirth.Kernel.Efifs

import Wirth.Lib.ByteImage
import Wirth.Lib.Ended
import Wirth.Lib.Text
import Wirth.Toolchain.EfiImage

namespace Wirth.Toolchain.EfiImage

open Wirth.Lib

def kSectorsPerCluster : Nat := 8

def kReservedSectors : Nat := 1

def kNumFats : Nat := 2

def kRootEntryCount : Nat := 512

def kMediaDescriptor : UInt8 := 0xF8

def kFatEoc : Nat := 0xFFFF

def kFatFirstDataCluster : Nat := 2

def clusterSize : Nat := kSectorsPerCluster * kBytesPerSector

def uint16 (n : Nat) : Nat := n % 2 ^ 16

def minus32 (a b : Nat) : Nat := uint32 (a + 2 ^ 32 - b)

def writeLe16 (n : Nat) : List UInt8 := [UInt8.ofNat n, UInt8.ofNat (n / 2 ^ 8)]

def rootDirSectors : Nat := uint32 (kRootEntryCount * 32 + kBytesPerSector - 1) / kBytesPerSector

structure Layout where
  totalSectors : Nat
  sectorsPerFat : Nat
  clusterCount : Nat
  firstFatSector : Nat
  rootDirSector : Nat
  firstDataSector : Nat
  deriving DecidableEq

-- The rounds of the search for a size of the tables: with how many sectors for each table it
-- ends, and how many clusters are left then.
def fitFat (totalSectors : Nat) : Nat → Nat → Nat → Nat × Nat
  | 0, fatSectors, clusterCount => (fatSectors, clusterCount)
  | rounds + 1, fatSectors, _ =>
      let dataSectors := minus32 (minus32 (minus32 totalSectors kReservedSectors) rootDirSectors)
        (uint32 (kNumFats * fatSectors))
      let newClusterCount := dataSectors / kSectorsPerCluster
      let newFatSectors :=
        uint32 (uint32 (uint32 (newClusterCount + 2) * 2) + kBytesPerSector - 1) / kBytesPerSector
      if newFatSectors = fatSectors then (fatSectors, newClusterCount)
      else fitFat totalSectors rounds newFatSectors newClusterCount

def computeLayout (sizeMiB : Nat) : Layout :=
  let totalSectors := uint32 (uint32 (sizeMiB * 1024) * 1024) / kBytesPerSector
  let (fatSectors, clusterCount) := fitFat totalSectors 16 0 0
  { totalSectors, clusterCount
    sectorsPerFat := fatSectors
    firstFatSector := kReservedSectors
    rootDirSector := uint32 (kReservedSectors + kNumFats * fatSectors)
    firstDataSector := uint32 (kReservedSectors + kNumFats * fatSectors + rootDirSectors) }

def clusterToSector (layout : Layout) (cluster : Nat) : Nat :=
  uint32 (layout.firstDataSector + minus32 cluster kFatFirstDataCluster * kSectorsPerCluster)

def clusterOffset (layout : Layout) (base cluster : Nat) : Nat :=
  base + clusterToSector layout cluster * kBytesPerSector

def setDirEntryName (name8 ext3 : Str) : List UInt8 :=
  name8.take 8 ++ List.replicate (8 - name8.length) 32 ++
    (ext3.take 3 ++ List.replicate (3 - ext3.length) 32)

def dirEntry (name : List UInt8) (attributes : UInt8) (firstCluster fileSize : Nat) : List UInt8 :=
  name ++ ([attributes] ++ List.replicate 14 0 ++ writeLe16 firstCluster ++ le32 fileSize)

def writeDirEntry (name8 ext3 : Str) (attributes : UInt8) (firstCluster fileSize : Nat) : List UInt8 :=
  dirEntry (setDirEntryName name8 ext3) attributes firstCluster fileSize

def writeVolumeLabelEntry (label11 : Str) : List UInt8 :=
  label11.take 11 ++ List.replicate (11 - label11.length) 0 ++ ([0x08] ++ List.replicate 20 0)

def writeDotEntry (parent : Bool) (cluster : Nat) : List UInt8 :=
  dirEntry (chr '.' :: (if parent then chr '.' else 32) :: List.replicate 9 32) 0x10 cluster 0

def writeBootSector (layout : Layout) (base : Nat) : Region where
  start := base
  bytes := [0xEB, 0x3C, 0x90] ++ (lit "WIRTH" ++ [0, 0, 0]) ++
    writeLe16 kBytesPerSector ++ [UInt8.ofNat kSectorsPerCluster] ++
    writeLe16 kReservedSectors ++ [UInt8.ofNat kNumFats] ++
    writeLe16 kRootEntryCount ++
    writeLe16 (if layout.totalSectors < 65536 then layout.totalSectors else 0) ++ [kMediaDescriptor] ++
    writeLe16 (uint16 layout.sectorsPerFat) ++ writeLe16 63 ++ writeLe16 255 ++
    le32 0 ++ le32 (if 65536 ≤ layout.totalSectors then layout.totalSectors else 0) ++
    [0x80, 0, 0x29] ++ le32 0x20260516 ++ (lit "wirth ESP" ++ [32, 32]) ++ lit "FAT16   " ++
    List.replicate 448 0 ++ [0x55, 0xAA]

structure PerFile (α : Type) where
  efi : α
  kernel32 : α
  kernel64 : α
  rootfs : α
  grubCfg : α

def PerFile.map {α β : Type} (f : α → β) (x : PerFile α) : PerFile β :=
  ⟨f x.efi, f x.kernel32, f x.kernel64, f x.rootfs, f x.grubCfg⟩

def setEntry (fat : List UInt8) (cluster value : Nat) : List UInt8 :=
  if cluster * 2 + 2 ≤ fat.length then splice fat (cluster * 2) (writeLe16 value) else fat

def writeChain (fat : List UInt8) (startCluster numClusters : Nat) : List UInt8 :=
  (List.range numClusters).foldl (fun fat i =>
    let cur := uint16 (uint32 (startCluster + i))
    setEntry fat cur (if i + 1 < numClusters then uint16 (cur + 1) else kFatEoc)) fat

-- The chains of the files, by their first cluster and their length.
def chains (clusters : PerFile Nat) (includeKernelFiles : Bool) : List (Nat × Nat) :=
  let start := if includeKernelFiles then 6 else 4
  (start, clusters.efi) :: if includeKernelFiles then
    [(uint32 (start + clusters.efi), clusters.kernel32),
      (uint32 (start + clusters.efi + clusters.kernel32), clusters.kernel64),
      (uint32 (start + clusters.efi + clusters.kernel32 + clusters.kernel64), clusters.rootfs),
      (uint32 (start + clusters.efi + clusters.kernel32 + clusters.kernel64 + clusters.rootfs),
        clusters.grubCfg)]
  else []

def fatTable (layout : Layout) (clusters : PerFile Nat) (includeKernelFiles : Bool) : List UInt8 :=
  let fat := List.replicate (uint32 (layout.sectorsPerFat * kBytesPerSector)) 0
  let fat := setEntry (setEntry fat 0 0xFFF8) 1 kFatEoc
  let fat := setEntry (setEntry (setEntry fat 2 kFatEoc) 3 kFatEoc) 5 kFatEoc
  let fat := if includeKernelFiles then setEntry fat 4 kFatEoc else fat
  (chains clusters includeKernelFiles).foldl (fun fat chain => writeChain fat chain.1 chain.2) fat

def writeFatTables (layout : Layout) (base : Nat) (clusters : PerFile Nat)
    (includeKernelFiles : Bool) : List Region :=
  (List.range kNumFats).map fun copy =>
    ⟨base + uint32 (layout.firstFatSector + copy * layout.sectorsPerFat) * kBytesPerSector,
      fatTable layout clusters includeKernelFiles⟩

-- Entries side by side, in slots of 32 bytes, and zeros up to the end of the directory.
def directory (size : Nat) (slots : List (List UInt8)) : List UInt8 :=
  slots.flatten ++ List.replicate (size - 32 * slots.length) 0

def emptySlot : List UInt8 := List.replicate 32 0

def writeRootDirectory (layout : Layout) (base : Nat) (includeKernelFiles : Bool) : Region where
  start := base + layout.rootDirSector * kBytesPerSector
  bytes := directory (rootDirSectors * kBytesPerSector)
    [writeVolumeLabelEntry (lit "wirth ESP"),
      writeDirEntry (lit "EFI") [] 0x10 2 0,
      if includeKernelFiles then writeDirEntry (lit "BOOT") [] 0x10 4 0 else emptySlot]

section Directories

-- The name that the entry of the seed gets.
variable (seedName : List UInt8)

def rootBootSlots (sizes starts : PerFile Nat) : List (List UInt8) :=
  [writeDotEntry false 4, writeDotEntry true 0,
    writeDirEntry (lit "KERNEL") (lit "ELF") 0x20 (uint16 starts.kernel32) sizes.kernel32,
    writeDirEntry (lit "KERNEL64") (lit "ELF") 0x20 (uint16 starts.kernel64) sizes.kernel64,
    if 0 < sizes.rootfs then dirEntry seedName 0x20 (uint16 starts.rootfs) sizes.rootfs else emptySlot,
    writeDirEntry (lit "GRUB") [] 0x10 5 0]

def directoryClusters (sizes starts : PerFile Nat) (includeKernelFiles : Bool) : List (List UInt8) :=
  [directory clusterSize [writeDotEntry false 2, writeDotEntry true 0,
      writeDirEntry (lit "BOOT") [] 0x10 3 0],
    directory clusterSize [writeDotEntry false 3, writeDotEntry true 2,
      writeDirEntry (lit "BOOTX64") (lit "EFI") 0x20 (uint16 starts.efi) sizes.efi]] ++
  if includeKernelFiles then
    [directory clusterSize (rootBootSlots seedName sizes starts),
      directory clusterSize [writeDotEntry false 5, writeDotEntry true 4,
        writeDirEntry (lit "GRUB") (lit "CFG") 0x20 (uint16 starts.grubCfg) sizes.grubCfg]]
  else []

def writeDirectoryClusters (layout : Layout) (base : Nat) (sizes starts : PerFile Nat)
    (includeKernelFiles : Bool) : List Region :=
  (directoryClusters seedName sizes starts includeKernelFiles).mapIdx fun i bytes =>
    ⟨clusterOffset layout base (2 + i), bytes⟩

end Directories

def rootfsSeedName : List UInt8 := setDirEntryName (lit "ROOTFS") (lit "SEED")

def writeCluster (layout : Layout) (base cluster : Nat) (chunk : List UInt8) : List Region :=
  ⟨clusterOffset layout base cluster, chunk⟩ ::
    if chunk.length < clusterSize then
      [⟨clusterOffset layout base cluster + chunk.length,
        List.replicate (clusterSize - chunk.length) 0⟩]
    else []

def writeFileLoop (layout : Layout) (base : Nat) (file : List UInt8) (startCluster : Nat) :
    Nat → Nat → Ended (List Region)
  | 0, _ => .diverges
  | fuel + 1, clustersWritten =>
      let offset := uint32 (clustersWritten * clusterSize)
      if offset < file.length then do
        let remaining := minus32 (uint32 file.length) offset
        let chunk := (file.drop offset).take (min remaining clusterSize)
        let rest ← writeFileLoop layout base file startCluster fuel (clustersWritten + 1)
        .returned (writeCluster layout base (uint32 (startCluster + clustersWritten)) chunk ++ rest)
      else .returned []

-- The offset takes `2 ^ 20` values. A loop that has seen them all does not end.
def writeFileClusters (layout : Layout) (base : Nat) (file : List UInt8) (startCluster : Nat) :
    Ended (List Region) :=
  writeFileLoop layout base file (uint16 startCluster) (2 ^ 20 + 1) 0

def writeFiles (layout : Layout) (base : Nat) : List (Nat × List UInt8) → Ended (List Region)
  | [] => .returned []
  | (startCluster, file) :: files => do
      let first ← writeFileClusters layout base file startCluster
      let rest ← writeFiles layout base files
      .returned (first ++ rest)

-- How many clusters a file takes, and the size that its entry records.
def numClusters (file : List UInt8) : Nat :=
  uint32 (uint32 file.length + clusterSize - 1) / clusterSize

def fileSize (file : List UInt8) : Nat := if file.isEmpty then 0 else uint32 file.length

structure Options where
  inputPath : Str
  kernel32Path : Str
  kernel64Path : Str
  rootfsPath : Str
  grubCfgPath : Str
  outputPath : Str
  sizeMiB : Nat

-- What the tool finds on the machine it runs on: its files, whether it can stage the seed, run
-- `mkfs.ext4` for a partition of that size and read the result, and whether the image can be
-- created, sized, opened and written.
structure Host where
  readFile : Str → Option (List UInt8)
  stageSeed : List UInt8 → Bool
  buildExt4Image : Nat → Bool
  ext4Image : Option (List UInt8)
  create : Bool
  size : Bool
  reopen : Bool
  flush : Bool

-- The image as a sequence of writes, of which some make the boot volume.
structure Output where
  base : Nat
  before : List Region
  volume : List Region
  after : List Region

def Output.image (out : Output) : ByteImage :=
  ByteImage.zero.writes (out.before ++ out.volume ++ out.after)

def Host.require (host : Host) (what path : Str) : Except Str (List UInt8) :=
  match host.readFile path with
  | some bytes => .ok bytes
  | none => .error (lit "failed to read " ++ what ++ lit ": " ++ path ++ lit "\n")

def Options.includeKernelFiles (opts : Options) : Bool := !opts.kernel32Path.isEmpty

def readInputs (opts : Options) (host : Host) : Except Str (PerFile (List UInt8)) := do
  let efi ← host.require (lit "EFI binary") opts.inputPath
  if opts.includeKernelFiles then
    let kernel32 ← host.require (lit "kernel binary") opts.kernel32Path
    let kernel64 ← host.require (lit "kernel binary") opts.kernel64Path
    let rootfs ← host.require (lit "rootfs seed") opts.rootfsPath
    let grubCfg ← host.require (lit "GRUB config") opts.grubCfgPath
    .ok ⟨efi, kernel32, kernel64, rootfs, grubCfg⟩
  else .ok ⟨efi, [], [], [], []⟩

def requiredDataClusters (files : PerFile (List UInt8)) (includeKernelFiles : Bool) : Nat :=
  uint32 (numClusters files.efi + numClusters files.kernel32 + numClusters files.kernel64 +
    numClusters files.grubCfg + if includeKernelFiles then 4 else 3)

def createMessage (opts : Options) : Str :=
  lit "failed to create output image: " ++ opts.outputPath ++ lit "\n"

def writePlainImage (layout : Layout) (efi : List UInt8) (opts : Options) (host : Host) :
    Ended (Except Str Output) :=
  if !host.create then .returned (.error (createMessage opts))
  else if !host.size then .returned (.error (lit "failed to size EFI boot image\n"))
  else do
    let written ← writeFiles layout 0 [(4, efi)]
    if !host.flush then .returned (.error (lit "failed while writing EFI boot image\n"))
    else .returned (.ok
      { base := 0
        before := [⟨layout.totalSectors * kBytesPerSector - 1, [0]⟩]
        volume := writeBootSector layout 0 ::
          writeFatTables layout 0 ⟨numClusters efi, 0, 0, 0, 0⟩ false ++
          writeRootDirectory layout 0 false ::
          writeDirectoryClusters rootfsSeedName layout 0 ⟨fileSize efi, 0, 0, 0, 0⟩ ⟨4, 0, 0, 0, 0⟩ false ++
          written
        after := [] })

def startClusters (files : PerFile (List UInt8)) : PerFile Nat :=
  let kernel32 := uint32 (6 + numClusters files.efi)
  let kernel64 := uint32 (kernel32 + numClusters files.kernel32)
  { efi := 6, kernel32, kernel64, rootfs := 0, grubCfg := uint32 (kernel64 + numClusters files.kernel64) }

-- The stream that gave the image its size holds the last byte back until it is closed, which
-- happens after all else is written.
def diskOutput (layout : Layout) (files : PerFile (List UInt8)) (totalDiskSectors : Nat)
    (boot persistent : Partition) (ext4Binary : List UInt8) (written : List Region) : Output :=
  let base := boot.startSector * kBytesPerSector
  { base
    before := [⟨0, (writeMbr boot persistent).bytes⟩]
    volume := writeBootSector layout base ::
      writeFatTables layout base ⟨numClusters files.efi, numClusters files.kernel32,
        numClusters files.kernel64, 0, numClusters files.grubCfg⟩ true ++
      writeRootDirectory layout base true ::
      writeDirectoryClusters rootfsSeedName layout base
        ⟨fileSize files.efi, fileSize files.kernel32, fileSize files.kernel64, 0, fileSize files.grubCfg⟩
        (startClusters files) true ++
      written
    after := [⟨persistent.startSector * kBytesPerSector, ext4Binary⟩,
      ⟨totalDiskSectors * kBytesPerSector - 1, [0]⟩] }

def writeDiskImage (layout : Layout) (files : PerFile (List UInt8)) (totalDiskSectors : Nat)
    (boot persistent : Partition) (ext4Binary : List UInt8) (host : Host) :
    Ended (Except Str Output) := do
  let starts := startClusters files
  let written ← writeFiles layout (boot.startSector * kBytesPerSector)
    [(starts.efi, files.efi), (starts.kernel32, files.kernel32), (starts.kernel64, files.kernel64),
      (starts.grubCfg, files.grubCfg)]
  .returned (if !host.flush then .error (lit "failed while writing EFI image\n")
    else .ok (diskOutput layout files totalDiskSectors boot persistent ext4Binary written))

def buildDiskImage (layout : Layout) (files : PerFile (List UInt8)) (opts : Options) (host : Host) :
    Ended (Except Str Output) :=
  let totalDiskSectors := opts.sizeMiB * 1024 * 1024 / kBytesPerSector
  let persistStart := kPartitionAlignmentSectors + layout.totalSectors
  let persistCount := if persistStart < totalDiskSectors then totalDiskSectors - persistStart else 0
  let persistSizeMiB := uint32 (persistCount * kBytesPerSector / (1024 * 1024))
  if persistCount = 0 then
    .returned (.error (lit "disk image too small for persistent ext4 partition\n"))
  else if persistSizeMiB = 0 then
    .returned (.error (lit "persistent partition size rounds to zero\n"))
  else if !host.stageSeed files.rootfs then
    .returned (.error (lit "failed to stage persistent rootfs seed\n"))
  else if !host.buildExt4Image persistSizeMiB then
    .returned (.error (lit "failed to build persistent ext4 image\n"))
  else
    match host.ext4Image with
    | none => .returned (.error (lit "failed to read persistent ext4 image\n"))
    | some ext4Binary =>
        if ext4Binary.length ≠ persistCount * kBytesPerSector then
          .returned (.error (lit "persistent ext4 image size mismatch\n"))
        else if !host.create then .returned (.error (createMessage opts))
        else if !host.reopen then .returned (.error
          (lit "failed to open output image for writing: " ++ opts.outputPath ++ lit "\n"))
        else writeDiskImage layout files totalDiskSectors
          ⟨kPartitionAlignmentSectors, layout.totalSectors, kMbrPartitionTypeEfi, true⟩
          ⟨persistStart, persistCount, kMbrPartitionTypeLinux, false⟩ ext4Binary host

def build (opts : Options) (host : Host) : Ended (Except Str Output) :=
  match readInputs opts host with
  | .error message => .returned (.error message)
  | .ok files =>
      let layout := computeLayout kBootPartitionMiB
      if layout.clusterCount < requiredDataClusters files opts.includeKernelFiles then
        .returned (.error (lit "boot partition too small for payload\n"))
      else if opts.includeKernelFiles then buildDiskImage layout files opts host
      else writePlainImage layout files.efi opts host

end Wirth.Toolchain.EfiImage

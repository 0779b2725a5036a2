import Wirth.Toolchain.EfiImage.Readback
import Mathlib.Data.List.Nodup

namespace Wirth.Toolchain.EfiImage

open Wirth.Lib

-- A file of a volume: where its entry is, under which name, its first cluster and its bytes.
structure Filed where
  directory : Nat
  slot : Nat
  name : Str
  first : Nat
  bytes : List UInt8

def Filed.entry (f : Filed) (v : ByteImage) : Fat16.Entry :=
  .ofSlot (((Fat16.cluster v f.directory).drop (32 * f.slot)).take 32)

def Filed.clusters (f : Filed) (v : ByteImage) : List Nat :=
  if f.bytes.isEmpty then [] else (Fat16.chain v 0 (f.entry v).firstCluster).getD []

-- The volume keeps the files, in clusters that belong to nobody else.
structure Stored (v : ByteImage) (directories : List Nat) (files : List Filed) : Prop where
  recorded : ∀ f ∈ files, f.entry v = ⟨f.name, 0x20, f.first, f.bytes.length⟩
  chain : ∀ f ∈ files, f.bytes ≠ [] → ∃ cs, Fat16.chain v 0 (f.entry v).firstCluster = some cs ∧
    cs.length = (f.bytes.length + 4095) / 4096 ∧ (Fat16.contents v cs).take (f.entry v).size = f.bytes
  directory : ∀ d ∈ directories, Fat16.chain v 0 d = some [d]
  disjoint : (directories.map (fun d => [d]) ++ files.map (·.clusters v)).Pairwise List.Disjoint
  inside : ∀ cs ∈ directories.map (fun d => [d]) ++ files.map (·.clusters v), ∀ c ∈ cs,
    2 ≤ c ∧ c < (Fat16.geometry v).clusterCount + 2
  copies : Fat16.fat v 1 = Fat16.fat v 0

theorem placed_pairwise {start : Nat} {files : List (List UInt8)} :
    (placed start files).Pairwise fun p q => p.1 + numClusters p.2 ≤ q.1 := by
  induction files generalizing start with
  | nil => exact List.Pairwise.nil
  | cons file files ih => exact List.Pairwise.cons (fun q hq => (placed_bounds hq).1) ih

theorem mem_of_placed {start c : Nat} {files : List (List UInt8)} {file : List UInt8}
    (h : (c, file) ∈ placed start files) : file ∈ files := by
  induction files generalizing start with
  | nil => cases h
  | cons first files ih =>
    rcases List.mem_cons.mp h with h | h
    · cases h
      exact List.mem_cons_self
    · exact List.mem_cons_of_mem _ (ih h)

@[simp] theorem numClusters_nil : numClusters [] = 0 := by decide

section Stored

variable {v : ByteImage} {layout : Layout} {table root : List UInt8} {directories : List (List UInt8)}
  {size start : Nat} {ds marked : List Nat} {files : List (List UInt8)} {filed : List Filed}

theorem numClusters_pos {file : List UInt8} (hlength : file.length < 2 ^ 32 - 4096) :
    0 < numClusters file ↔ file ≠ [] := by
  grind [numClusters_eq, List.length_pos_iff]

theorem stored_of_holds (hsound : layout.Sound) (h : Holds v layout table root directories (placed start files))
    (hchained : Chained table size start marked files) (hstart : 2 ≤ start)
    (hfits : start + totalClusters files ≤ layout.clusterCount + 2)
    (hds : ∀ d ∈ ds, 2 ≤ d ∧ d < start ∧ d ∈ marked) (hnodup : ds.Nodup)
    (hlengths : ∀ file ∈ files, file.length < 2 ^ 32 - 4096)
    (hplaces : filed.map (fun f => (f.first, f.bytes)) = placed start files)
    (hentries : ∀ f ∈ filed, f.entry v = ⟨f.name, 0x20, f.first, f.bytes.length⟩) :
    Stored v ds filed := by
  have hcount := h.clusterCount_ge hsound
  have hplace : ∀ f ∈ filed, (f.first, f.bytes) ∈ placed start files := by
    intro f hf
    rw [← hplaces]
    exact List.mem_map.mpr ⟨f, hf, rfl⟩
  have hlength : ∀ f ∈ filed, f.bytes.length < 2 ^ 32 - 4096 := fun f hf =>
    hlengths _ (mem_of_placed (hplace f hf))
  have hchain : ∀ f ∈ filed, f.bytes ≠ [] →
      Fat16.chain v 0 f.first = some (List.range' f.first (numClusters f.bytes)) := fun f hf hne =>
    h.chain_file hsound rfl hchained hstart hfits (hplace f hf)
      ((numClusters_pos (hlength f hf)).mpr hne) (by omega)
  have hclusters : filed.map (·.clusters v) =
      filed.map fun f => List.range' f.first (numClusters f.bytes) := by
    refine List.map_congr_left fun f hf => ?_
    rw [Filed.clusters, hentries f hf]
    by_cases hempty : f.bytes = []
    · rw [hempty, if_pos List.isEmpty_nil, numClusters_nil, List.range'_zero]
    · grind
  refine ⟨hentries, fun f hf hne => ?_, fun d hd => ?_, ?_, ?_, ?_⟩
  · rw [hentries f hf]
    refine ⟨_, hchain f hf hne, ?_, h.contents_file hsound (hplace f hf) (hlength f hf)⟩
    rw [List.length_range', numClusters_eq (hlength f hf)]
  · obtain ⟨hlow, hhigh, hmarked⟩ := hds d hd
    exact h.chain_directory hsound hchained hmarked hlow (by omega) (by omega)
  · have hordered := @placed_pairwise start files
    rw [← hplaces, List.pairwise_map] at hordered
    rw [hclusters, List.pairwise_append, List.pairwise_map, List.pairwise_map]
    refine ⟨hnodup.imp fun hne => ?_, hordered.imp fun {p q} hpq => ?_, ?_⟩
    · grind [List.disjoint_singleton]
    · intro c hp hq
      grind
    · intro cs hcs cs' hcs' c hc hc'
      obtain ⟨d, hd, rfl⟩ := List.mem_map.mp hcs
      obtain ⟨f, hf, rfl⟩ := List.mem_map.mp hcs'
      have hbounds := placed_bounds (hplace f hf)
      grind
  · intro cs hcs c hc
    rw [hclusters, List.mem_append] at hcs
    rcases hcs with hcs | hcs
    · grind
    · obtain ⟨f, hf, rfl⟩ := List.mem_map.mp hcs
      have hbounds := placed_bounds (hplace f hf)
      rw [List.mem_range'_1] at hc
      omega
  · rw [h.fat_eq hsound (by omega), h.fat_eq hsound (by omega)]

end Stored

section Directories

variable {seedName : List UInt8} {sizes starts : PerFile Nat} {layout : Layout}

theorem writeDotEntry_length (parent : Bool) (cluster : Nat) : (writeDotEntry parent cluster).length = 32 :=
  dirEntry_length (by simp)

theorem writeDirEntry_length (name8 ext3 : Str) (attributes : UInt8) (firstCluster fileSize : Nat) :
    (writeDirEntry name8 ext3 attributes firstCluster fileSize).length = 32 :=
  dirEntry_length (setDirEntryName_length _ _)

theorem rootBootSlots_lengths (hseed : seedName.length = 11) :
    ∀ slot ∈ rootBootSlots seedName sizes starts, slot.length = 32 := by
  have hslot : (if 0 < sizes.rootfs then dirEntry seedName 0x20 (uint16 starts.rootfs) sizes.rootfs
      else emptySlot).length = 32 := by
    split_ifs
    · exact dirEntry_length hseed
    · exact List.length_replicate
  simp only [rootBootSlots, List.forall_mem_cons, writeDotEntry_length, writeDirEntry_length, hslot]
  simp

theorem directoryClusters_lengths (hseed : seedName.length = 11) (includeKernelFiles : Bool) :
    ∀ bytes ∈ directoryClusters seedName sizes starts includeKernelFiles, bytes.length = 4096 := by
  have hthree : ∀ a b c : List UInt8, a.length = 32 → b.length = 32 → c.length = 32 →
      (directory clusterSize [a, b, c]).length = 4096 := by
    intro a b c ha hb hc
    refine directory_length ?_ (show 32 * 3 ≤ clusterSize by decide)
    simp only [List.forall_mem_cons, ha, hb, hc]
    simp
  have hboot : (directory clusterSize (rootBootSlots seedName sizes starts)).length = 4096 :=
    directory_length (rootBootSlots_lengths hseed) (show 32 * 6 ≤ clusterSize by decide)
  cases includeKernelFiles
  · simp [directoryClusters, hthree, writeDotEntry_length, writeDirEntry_length]
  · simp [directoryClusters, hthree, writeDotEntry_length, writeDirEntry_length, hboot]

theorem writeRootDirectory_length (base : Nat) (includeKernelFiles : Bool) :
    (writeRootDirectory layout base includeKernelFiles).bytes.length = 16384 := by
  have hboot : (if includeKernelFiles then writeDirEntry (lit "BOOT") [] 0x10 4 0 else emptySlot).length = 32 := by
    cases includeKernelFiles
    · exact List.length_replicate
    · exact writeDirEntry_length _ _ _ _ _
  have hlabel : (writeVolumeLabelEntry (lit "wirth ESP")).length = 32 := by decide +kernel
  refine directory_length ?_ (show 32 * 3 ≤ rootDirSectors * kBytesPerSector by decide)
  simp only [List.forall_mem_cons, hlabel, hboot, writeDirEntry_length]
  simp

end Directories

-- The first clusters of files that follow each other after the directories.
def kernelStarts (files : PerFile (List UInt8)) : PerFile Nat where
  efi := 6
  kernel32 := 6 + numClusters files.efi
  kernel64 := 6 + numClusters files.efi + numClusters files.kernel32
  rootfs := 6 + numClusters files.efi + numClusters files.kernel32 + numClusters files.kernel64
  grubCfg := 6 + numClusters files.efi + numClusters files.kernel32 + numClusters files.kernel64 +
    numClusters files.rootfs

-- The volume with kernel files, written with arguments that agree.
def kernelVolume (seedName : List UInt8) (layout : Layout) (base : Nat) (files : PerFile (List UInt8)) :
    List Region :=
  volumeRegions seedName layout base (files.map numClusters) (files.map fileSize) (kernelStarts files) true
    (placed 6 files.toList)

def plainVolume (layout : Layout) (base : Nat) (efi : List UInt8) : List Region :=
  volumeRegions rootfsSeedName layout base ⟨numClusters efi, 0, 0, 0, 0⟩ ⟨fileSize efi, 0, 0, 0, 0⟩
    ⟨4, 0, 0, 0, 0⟩ false (placed 4 [efi])

section Volumes

variable {layout : Layout} (hsound : layout.Sound) {base : Nat} {img : ByteImage}
include hsound

section Kernel

variable {seedName : List UInt8} {files : PerFile (List UInt8)} (hseed : seedName.length = 11)
  (hfits : 6 + totalClusters files.toList ≤ layout.clusterCount + 2)
include hseed hfits

theorem kernelVolume_ascending :
    InOrder base (kernelVolume seedName layout base files) (base + layout.totalSectors * 512) :=
  volumeRegions_ascending hsound (fatTable_kernel hsound hfits).length (writeRootDirectory_length _ _)
    (directoryClusters_lengths hseed _) rfl hfits

theorem kernelVolume_holds (hread : ∀ r ∈ kernelVolume seedName layout base files,
      img.bytes r.start r.bytes.length = r.bytes) :
    Holds (img.suffix base) layout (fatTable layout (files.map numClusters) true)
      (writeRootDirectory layout base true).bytes
      (directoryClusters seedName (files.map fileSize) (kernelStarts files) true) (placed 6 files.toList) :=
  holds_of_readback hsound (fatTable_kernel hsound hfits).length (writeRootDirectory_length _ _)
    (directoryClusters_lengths hseed _) rfl hfits hread

end Kernel

section Plain

variable {efi : List UInt8} (hroom : 4 ≤ layout.clusterCount)
  (hfits : 4 + numClusters efi ≤ layout.clusterCount + 2)
include hroom hfits

theorem plainVolume_ascending :
    InOrder base (plainVolume layout base efi) (base + layout.totalSectors * 512) :=
  volumeRegions_ascending hsound (fatTable_plain hsound hroom hfits).length (writeRootDirectory_length _ _)
    (directoryClusters_lengths (setDirEntryName_length _ _) _) rfl hfits

theorem plainVolume_holds (hread : ∀ r ∈ plainVolume layout base efi,
      img.bytes r.start r.bytes.length = r.bytes) :
    Holds (img.suffix base) layout (fatTable layout ⟨numClusters efi, 0, 0, 0, 0⟩ false)
      (writeRootDirectory layout base false).bytes
      (directoryClusters rootfsSeedName ⟨fileSize efi, 0, 0, 0, 0⟩ ⟨4, 0, 0, 0, 0⟩ false) (placed 4 [efi]) :=
  holds_of_readback hsound (fatTable_plain hsound hroom hfits).length (writeRootDirectory_length _ _)
    (directoryClusters_lengths (setDirEntryName_length _ _) _) rfl hfits hread

end Plain

end Volumes

end Wirth.Toolchain.EfiImage

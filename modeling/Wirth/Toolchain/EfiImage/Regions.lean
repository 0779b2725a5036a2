import Wirth.Toolchain.EfiImage.Tables

namespace Wirth.Toolchain.EfiImage

open Wirth.Lib

def window (file : List UInt8) (i : Nat) : List UInt8 := (file.drop (clusterSize * i)).take clusterSize

def fileRegions (layout : Layout) (base : Nat) (place : Nat × List UInt8) : List Region :=
  (List.range (numClusters place.2)).flatMap fun i =>
    writeCluster layout base (place.1 + i) (window place.2 i)

section Files

variable {layout : Layout} {base start : Nat} {file : List UInt8} {files : List (List UInt8)}

theorem numClusters_eq (h : file.length < 2 ^ 32 - 4096) : numClusters file = (file.length + 4095) / 4096 := by
  have hsize : clusterSize = 4096 := rfl
  grind [numClusters, uint32_eq_self]

theorem window_length_le {i : Nat} : (window file i).length ≤ clusterSize := by
  rw [window, List.length_take]
  exact Nat.min_le_left _ _

theorem writeFileLoop_eq (hlength : file.length < 2 ^ 32 - 4096) (hstart : start + numClusters file < 2 ^ 32)
    {fuel k m : Nat} (hk : k + m = numClusters file) (hfuel : m < fuel) :
    writeFileLoop layout base file start fuel k = .returned ((List.range' k m).flatMap fun i =>
      writeCluster layout base (start + i) (window file i)) := by
  have hsize : clusterSize = 4096 := rfl
  rw [numClusters_eq hlength] at hstart hk
  induction m generalizing fuel k with
  | zero =>
    obtain ⟨fuel, rfl⟩ : ∃ n, fuel = n + 1 := ⟨fuel - 1, by omega⟩
    rw [writeFileLoop, hsize, uint32_eq_self (by omega), if_neg (by omega)]
    rfl
  | succ m ih =>
    obtain ⟨fuel, rfl⟩ : ∃ n, fuel = n + 1 := ⟨fuel - 1, by omega⟩
    have hoffset : uint32 (k * clusterSize) = k * 4096 := by rw [hsize, uint32_eq_self (by omega)]
    have hremaining : minus32 (uint32 file.length) (k * 4096) = file.length - k * 4096 := by
      unfold minus32 uint32
      omega
    have hchunk : (file.drop (k * 4096)).take (min (file.length - k * 4096) clusterSize) = window file k := by
      rw [window, hsize, Nat.mul_comm k, ← List.length_drop, Nat.min_comm, ← List.take_take, List.take_length]
    rw [writeFileLoop, hoffset]
    simp only [hremaining, hchunk]
    rw [if_pos (by omega), ih (by omega) (by omega), uint32_eq_self (by omega), Ended.returned_bind,
      List.range'_succ, List.flatMap_cons]

theorem writeFileClusters_eq (hlength : file.length < 2 ^ 32 - 4096)
    (hstart : start + numClusters file < 2 ^ 16) :
    writeFileClusters layout base file start = .returned (fileRegions layout base (start, file)) := by
  rw [writeFileClusters, uint16, Nat.mod_eq_of_lt (by omega),
    writeFileLoop_eq hlength (by omega) (Nat.zero_add _) (by omega), fileRegions, List.range_eq_range']

theorem writeFiles_eq {places : List (Nat × List UInt8)}
    (h : ∀ place ∈ places, place.2.length < 2 ^ 32 - 4096 ∧ place.1 + numClusters place.2 < 2 ^ 16) :
    writeFiles layout base places = .returned (places.flatMap (fileRegions layout base)) := by
  induction places with
  | nil => rfl
  | cons place places ih =>
    obtain ⟨hlength, hstart⟩ := h place List.mem_cons_self
    rw [writeFiles, writeFileClusters_eq hlength hstart, ih fun p hp => h p (List.mem_cons_of_mem _ hp),
      Ended.returned_bind, Ended.returned_bind, List.flatMap_cons]

end Files

def volumeRegions (seedName : List UInt8) (layout : Layout) (base : Nat) (clusters sizes starts : PerFile Nat)
    (includeKernelFiles : Bool) (places : List (Nat × List UInt8)) : List Region :=
  writeBootSector layout base :: writeFatTables layout base clusters includeKernelFiles ++
    writeRootDirectory layout base includeKernelFiles ::
    writeDirectoryClusters seedName layout base sizes starts includeKernelFiles ++
    places.flatMap (fileRegions layout base)

theorem writeBootSector_length (layout : Layout) (base : Nat) :
    (writeBootSector layout base).bytes.length = 512 := by
  simp only [writeBootSector, List.length_append, List.length_replicate, le32_length]
  rfl

section InOrder

variable {layout : Layout} (hsound : layout.Sound) {base c : Nat}
include hsound

theorem clusterOffset_eq (hlow : 2 ≤ c) (hhigh : c ≤ layout.clusterCount + 2) :
    clusterOffset layout base c = base + (33 + 2 * layout.sectorsPerFat) * 512 + (c - 2) * 4096 := by
  have hinside := hsound.inside
  have htotal := hsound.total
  have hdata := hsound.firstData
  have hminus : minus32 c kFatFirstDataCluster = c - 2 := by
    unfold minus32 uint32 kFatFirstDataCluster
    omega
  rw [clusterOffset, clusterToSector, hminus, kSectorsPerCluster, kBytesPerSector,
    uint32_eq_self (by omega)]
  omega

theorem writeCluster_ascending {chunk : List UInt8} (hlow : 2 ≤ c) (hhigh : c < layout.clusterCount + 2)
    (hchunk : chunk.length ≤ clusterSize) :
    InOrder (clusterOffset layout base c) (writeCluster layout base c chunk)
      (clusterOffset layout base (c + 1)) := by
  have hsize : clusterSize = 4096 := rfl
  rw [clusterOffset_eq hsound (by omega) (by omega : c + 1 ≤ layout.clusterCount + 2), writeCluster,
    clusterOffset_eq hsound hlow (by omega)]
  by_cases hshort : chunk.length < clusterSize
  · rw [if_pos hshort]
    simp only [InOrder, Region.stop, List.length_replicate]
    omega
  · rw [if_neg hshort]
    simp only [InOrder, Region.stop]
    omega

theorem fileRegions_ascending {start : Nat} {file : List UInt8} (hlow : 2 ≤ start)
    (hhigh : start + numClusters file ≤ layout.clusterCount + 2) :
    InOrder (clusterOffset layout base start) (fileRegions layout base (start, file))
      (clusterOffset layout base (start + numClusters file)) := by
  refine @InOrder.flatMap_range _ (fun i => clusterOffset layout base (start + i)) _ fun i hi => ?_
  grind [writeCluster_ascending, window_length_le]

theorem places_ascending {files : List (List UInt8)} {start : Nat} (hlow : 2 ≤ start)
    (hhigh : start + totalClusters files ≤ layout.clusterCount + 2) :
    InOrder (clusterOffset layout base start) ((placed start files).flatMap (fileRegions layout base))
      (clusterOffset layout base (start + totalClusters files)) := by
  induction files generalizing start with
  | nil => exact Nat.le_refl _
  | cons file files ih =>
    rw [totalClusters_cons] at hhigh
    rw [placed, List.flatMap_cons, totalClusters_cons, ← Nat.add_assoc]
    exact (fileRegions_ascending hsound hlow (by omega)).append (ih (by omega) (by omega))

theorem mapIdx_ascending {directories : List (List UInt8)} {first : Nat} (hlow : 2 ≤ first)
    (hhigh : first + directories.length ≤ layout.clusterCount + 2)
    (hlength : ∀ bytes ∈ directories, bytes.length = 4096) :
    InOrder (clusterOffset layout base first)
      (directories.mapIdx fun i bytes => ⟨clusterOffset layout base (first + i), bytes⟩)
      (clusterOffset layout base (first + directories.length)) := by
  induction directories generalizing first with
  | nil => exact Nat.le_refl _
  | cons bytes directories ih =>
    rw [List.length_cons] at hhigh
    have hrest := ih (by omega : 2 ≤ first + 1) (by omega) fun b hb => hlength b (List.mem_cons_of_mem _ hb)
    have hstop : clusterOffset layout base (first + 1) = clusterOffset layout base first + 4096 := by
      rw [clusterOffset_eq hsound (by omega) (by omega), clusterOffset_eq hsound hlow (by omega)]
      omega
    rw [List.mapIdx_cons, List.length_cons]
    refine ⟨Nat.le_refl _, ?_⟩
    simp only [Region.stop, hlength bytes List.mem_cons_self, Nat.add_zero, ← hstop]
    simpa only [Nat.add_assoc, Nat.add_comm 1] using hrest

-- The regions of a volume lie side by side, from its first byte on.
theorem volumeRegions_ascending {seedName : List UInt8} {clusters sizes starts : PerFile Nat}
    {includeKernelFiles : Bool} {files : List (List UInt8)} {start : Nat}
    (htable : (fatTable layout clusters includeKernelFiles).length = 512 * layout.sectorsPerFat)
    (hroot : (writeRootDirectory layout base includeKernelFiles).bytes.length = 16384)
    (hdirectories : ∀ bytes ∈ directoryClusters seedName sizes starts includeKernelFiles, bytes.length = 4096)
    (hstart : start = 2 + (directoryClusters seedName sizes starts includeKernelFiles).length)
    (hfits : start + totalClusters files ≤ layout.clusterCount + 2) :
    InOrder base (volumeRegions seedName layout base clusters sizes starts includeKernelFiles
      (placed start files)) (base + layout.totalSectors * 512) := by
  have htable16 := hsound.table
  have hinside := hsound.inside
  have hdata := hsound.firstData
  have hboot := writeBootSector_length layout base
  have hhead : InOrder base (writeBootSector layout base ::
      writeFatTables layout base clusters includeKernelFiles ++
      [writeRootDirectory layout base includeKernelFiles])
      (base + (33 + 2 * layout.sectorsPerFat) * 512) := by
    have hfats : writeFatTables layout base clusters includeKernelFiles =
        [⟨base + 512, fatTable layout clusters includeKernelFiles⟩,
          ⟨base + (1 + layout.sectorsPerFat) * 512, fatTable layout clusters includeKernelFiles⟩] := by
      simp only [writeFatTables, kNumFats, kBytesPerSector, hsound.firstFat,
        show List.range 2 = [0, 1] from rfl, List.map_cons, List.map_nil, Nat.zero_mul, Nat.one_mul,
        Nat.add_zero]
      grind [uint32_eq_self]
    have hrootStart : (writeRootDirectory layout base includeKernelFiles).start =
        base + (1 + 2 * layout.sectorsPerFat) * 512 := by
      rw [writeRootDirectory, hsound.rootDir, kBytesPerSector]
    have hbootStart : (writeBootSector layout base).start = base := rfl
    rw [hfats]
    simp only [InOrder, List.cons_append, List.nil_append, Region.stop, htable, hroot, hboot, hrootStart,
      hbootStart]
    omega
  have hfirst : clusterOffset layout base 2 = base + (33 + 2 * layout.sectorsPerFat) * 512 := by
    rw [clusterOffset_eq hsound (Nat.le_refl _) (by omega)]
    omega
  have hlast : clusterOffset layout base (start + totalClusters files) ≤ base + layout.totalSectors * 512 := by
    rw [clusterOffset_eq hsound (by omega) hfits]
    omega
  have hdirs := @mapIdx_ascending layout hsound base _ 2 (Nat.le_refl 2)
    (by omega : 2 + (directoryClusters seedName sizes starts includeKernelFiles).length ≤ layout.clusterCount + 2)
    hdirectories
  rw [hfirst, ← hstart] at hdirs
  have hplaces := @places_ascending layout hsound base files start (by omega) hfits
  have hall := hhead.append (hdirs.append (hplaces.mono (Nat.le_refl _) hlast))
  rw [volumeRegions, writeDirectoryClusters]
  simpa only [List.append_assoc, List.cons_append, List.nil_append] using hall

end InOrder

end Wirth.Toolchain.EfiImage

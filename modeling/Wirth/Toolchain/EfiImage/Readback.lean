import Wirth.Toolchain.EfiImage.Regions
import Wirth.Lib.Fat16

namespace Wirth.Toolchain.EfiImage

open Wirth.Lib

theorem writeBootSector_fields (layout : Layout) (base : Nat) : ∃ rest, (writeBootSector layout base).bytes =
    [0xEB, 0x3C, 0x90, 0x57, 0x49, 0x52, 0x54, 0x48, 0, 0, 0, 0, 2, 8, 1, 0, 2, 0, 2] ++
      (writeLe16 (if layout.totalSectors < 65536 then layout.totalSectors else 0) ++ ([0xF8] ++
      (writeLe16 (uint16 layout.sectorsPerFat) ++ ([63, 0, 255, 0, 0, 0, 0, 0] ++
      (le32 (if 65536 ≤ layout.totalSectors then layout.totalSectors else 0) ++ rest))))) := by
  have hname : lit "WIRTH" = [0x57, 0x49, 0x52, 0x54, 0x48] := by decide +kernel
  have hsector : writeLe16 kBytesPerSector = [0, 2] := by decide +kernel
  have hcluster : UInt8.ofNat kSectorsPerCluster = 8 := by decide +kernel
  have hreserved : writeLe16 kReservedSectors = [1, 0] := by decide +kernel
  have hfats : UInt8.ofNat kNumFats = 2 := by decide +kernel
  have hroot : writeLe16 kRootEntryCount = [0, 2] := by decide +kernel
  have hheads : writeLe16 63 ++ (writeLe16 255 ++ le32 0) = [63, 0, 255, 0, 0, 0, 0, 0] := by decide +kernel
  simp only [writeBootSector, hname, hsector, hcluster, hreserved, hfats, hroot, kMediaDescriptor, List.append_assoc,
    ← hheads, List.cons_append, List.nil_append]
  exact ⟨_, rfl⟩

theorem u16At_append {before after : List UInt8} {value i : Nat} (h : value < 2 ^ 16) (hi : before.length = i) :
    u16At (before ++ (writeLe16 value ++ after)) i = value := by
  subst hi
  have hskip : ∀ k, (before ++ (writeLe16 value ++ after)).getD (before.length + k) 0 =
      (writeLe16 value ++ after).getD k 0 := by
    grind
  rw [u16At, hskip 1, ← Nat.add_zero before.length, hskip 0]
  exact u16At_writeLe16 h

theorem geometry_ofBootSector {layout : Layout} (hsound : layout.Sound) (base : Nat) :
    Fat16.Geometry.ofBootSector (writeBootSector layout base).bytes =
      ⟨512, 8, 1, 2, 512, layout.sectorsPerFat, layout.totalSectors⟩ := by
  have htable := hsound.table
  have htotal := hsound.total
  obtain ⟨rest, hbytes⟩ := writeBootSector_fields layout base
  have hspf : uint16 layout.sectorsPerFat = layout.sectorsPerFat := Nat.mod_eq_of_lt htable
  rw [hspf] at hbytes
  have hfat : u16At (writeBootSector layout base).bytes 22 = layout.sectorsPerFat := by
    rw [hbytes, ← List.append_assoc, ← List.append_assoc]
    exact u16At_append htable rfl
  have hshort : u16At (writeBootSector layout base).bytes 19 =
      if layout.totalSectors < 65536 then layout.totalSectors else 0 := by
    rw [hbytes]
    exact u16At_append (by split_ifs <;> omega) rfl
  have hlong : at32 (writeBootSector layout base).bytes 32 =
      if 65536 ≤ layout.totalSectors then layout.totalSectors else 0 := by
    rw [hbytes, ← List.append_assoc, ← List.append_assoc, ← List.append_assoc, ← List.append_assoc]
    exact @at32_append _ rest _ (by split_ifs <;> omega)
  have hword : (0 : UInt8).toNat + 256 * (2 : UInt8).toNat = 512 := by decide
  have hone : (1 : UInt8).toNat + 256 * (0 : UInt8).toNat = 1 := by decide
  rw [Fat16.Geometry.ofBootSector, hfat, hshort, hlong, hbytes, Fat16.Geometry.mk.injEq]
  refine ⟨hword, rfl, hone, rfl, hword, rfl, ?_⟩
  split_ifs <;> omega

structure Holds (v : ByteImage) (layout : Layout) (table root : List UInt8)
    (directories : List (List UInt8)) (places : List (Nat × List UInt8)) : Prop where
  boot : v.bytes 0 512 = (writeBootSector layout 0).bytes
  fat : ∀ copy, copy < 2 →
    v.bytes ((1 + copy * layout.sectorsPerFat) * 512) (512 * layout.sectorsPerFat) = table
  root : v.bytes ((1 + 2 * layout.sectorsPerFat) * 512) 16384 = root
  directory : ∀ i bytes, directories[i]? = some bytes →
    v.bytes ((33 + 2 * layout.sectorsPerFat) * 512 + i * 4096) 4096 = bytes
  file : ∀ c file, (c, file) ∈ places → ∀ i, i < numClusters file →
    v.bytes ((33 + 2 * layout.sectorsPerFat) * 512 + (c + i - 2) * 4096) 4096 =
      window file i ++ List.replicate (4096 - (window file i).length) 0

section Readback

variable {img : ByteImage} {layout : Layout} {base : Nat}

theorem writeCluster_readback {c : Nat} {chunk : List UInt8} (hchunk : chunk.length ≤ clusterSize)
    (hread : ∀ r ∈ writeCluster layout base c chunk, img.bytes r.start r.bytes.length = r.bytes) :
    img.bytes (clusterOffset layout base c) 4096 = chunk ++ List.replicate (4096 - chunk.length) 0 := by
  have hsize : clusterSize = 4096 := rfl
  have hfirst := hread _ List.mem_cons_self
  by_cases hshort : chunk.length < clusterSize
  · have hsecond := hread ⟨clusterOffset layout base c + chunk.length,
      List.replicate (clusterSize - chunk.length) 0⟩ (by rw [writeCluster, if_pos hshort]; simp)
    rw [List.length_replicate] at hsecond
    rw [show 4096 = chunk.length + (clusterSize - chunk.length) by omega, ByteImage.bytes_add, hfirst, hsecond,
      Nat.add_sub_cancel_left]
  · rw [show 4096 = chunk.length by omega, hfirst, Nat.sub_self, List.replicate_zero, List.append_nil]

theorem holds_of_readback (hsound : layout.Sound) {seedName : List UInt8} {clusters sizes starts : PerFile Nat}
    {includeKernelFiles : Bool} {files : List (List UInt8)} {start : Nat}
    (htable : (fatTable layout clusters includeKernelFiles).length = 512 * layout.sectorsPerFat)
    (hroot : (writeRootDirectory layout base includeKernelFiles).bytes.length = 16384)
    (hdirectories : ∀ bytes ∈ directoryClusters seedName sizes starts includeKernelFiles, bytes.length = 4096)
    (hstart : start = 2 + (directoryClusters seedName sizes starts includeKernelFiles).length)
    (hfits : start + totalClusters files ≤ layout.clusterCount + 2)
    (hread : ∀ r ∈ volumeRegions seedName layout base clusters sizes starts includeKernelFiles
      (placed start files), img.bytes r.start r.bytes.length = r.bytes) :
    Holds (img.suffix base) layout (fatTable layout clusters includeKernelFiles)
      (writeRootDirectory layout base includeKernelFiles).bytes
      (directoryClusters seedName sizes starts includeKernelFiles) (placed start files) := by
  have htable16 := hsound.table
  simp only [volumeRegions, List.cons_append, List.mem_cons, List.mem_append, or_assoc] at hread
  constructor
  · have := hread _ (Or.inl rfl)
    rw [writeBootSector_length] at this
    rw [ByteImage.bytes_suffix]
    exact this
  · intro copy hcopy
    have hregion : (⟨base + uint32 (layout.firstFatSector + copy * layout.sectorsPerFat) * kBytesPerSector,
        fatTable layout clusters includeKernelFiles⟩ : Region) ∈
        writeFatTables layout base clusters includeKernelFiles :=
      List.mem_map.mpr ⟨copy, List.mem_range.mpr hcopy, rfl⟩
    have := hread _ (Or.inr (Or.inl hregion))
    rw [htable, hsound.firstFat, kBytesPerSector, uint32_eq_self] at this
    · rw [ByteImage.bytes_suffix]
      exact this
    · have hle : copy * layout.sectorsPerFat ≤ 1 * layout.sectorsPerFat :=
        Nat.mul_le_mul_right _ (by omega)
      omega
  · have := hread _ (Or.inr (Or.inr (Or.inl rfl)))
    rw [hroot] at this
    rw [ByteImage.bytes_suffix, ← hsound.rootDir]
    exact this
  · intro i bytes hi
    have hbound : i < (directoryClusters seedName sizes starts includeKernelFiles).length :=
      (List.getElem?_eq_some_iff.mp hi).1
    have hregion : (⟨clusterOffset layout base (2 + i), bytes⟩ : Region) ∈
        writeDirectoryClusters seedName layout base sizes starts includeKernelFiles := by
      rw [writeDirectoryClusters, List.mem_mapIdx]
      exact ⟨i, hbound, by rw [(List.getElem?_eq_some_iff.mp hi).2]⟩
    have := hread _ (Or.inr (Or.inr (Or.inr (Or.inl hregion))))
    rw [hdirectories _ (List.mem_of_getElem? hi), clusterOffset_eq hsound (by omega) (by omega),
      Nat.add_sub_cancel_left] at this
    rw [ByteImage.bytes_suffix, ← Nat.add_assoc]
    exact this
  · intro c file hplace i hi
    obtain ⟨hlow, hhigh⟩ := placed_bounds hplace
    have hregions : ∀ r ∈ writeCluster layout base (c + i) (window file i),
        r ∈ (placed start files).flatMap (fileRegions layout base) := fun r hr =>
      List.mem_flatMap.mpr ⟨(c, file), hplace, List.mem_flatMap.mpr ⟨i, List.mem_range.mpr hi, hr⟩⟩
    have hcluster := writeCluster_readback window_length_le fun r hr =>
      hread r (Or.inr (Or.inr (Or.inr (Or.inr (hregions r hr)))))
    grind [clusterOffset_eq, ByteImage.bytes_suffix]

end Readback

namespace Holds

variable {v : ByteImage} {layout : Layout} {table root : List UInt8} {directories : List (List UInt8)}
  {places : List (Nat × List UInt8)} (hsound : layout.Sound) (h : Holds v layout table root directories places)
include hsound h

theorem geometry_eq : Fat16.geometry v = ⟨512, 8, 1, 2, 512, layout.sectorsPerFat, layout.totalSectors⟩ := by
  rw [Fat16.geometry, h.boot, geometry_ofBootSector hsound]

theorem clusterCount_ge : layout.clusterCount ≤ (Fat16.geometry v).clusterCount := by
  have hinside := hsound.inside
  have hdata := hsound.firstData
  rw [h.geometry_eq hsound]
  simp only [Fat16.Geometry.clusterCount, Fat16.Geometry.dataSector, Fat16.Geometry.rootSector]
  omega

theorem fat_eq {copy : Nat} (hcopy : copy < 2) : Fat16.fat v copy = table := by
  rw [Fat16.fat, h.geometry_eq hsound, ← h.fat copy hcopy]
  simp [Fat16.Geometry.fatStart, Nat.mul_comm]

theorem rootDirectory_eq : Fat16.rootDirectory v = root := by
  have hstart : (Fat16.geometry v).rootSector * (Fat16.geometry v).bytesPerSector =
      (1 + 2 * layout.sectorsPerFat) * 512 := by
    rw [h.geometry_eq hsound, Fat16.Geometry.rootSector]
  have hcount : (Fat16.geometry v).rootEntryCount * 32 = 16384 := by
    simp only [h.geometry_eq hsound, Nat.reduceMul]
  rw [Fat16.rootDirectory, hstart, hcount, h.root]

theorem cluster_eq {c : Nat} : Fat16.cluster v c =
    v.bytes ((33 + 2 * layout.sectorsPerFat) * 512 + (c - 2) * 4096) 4096 := by
  have hstart : (Fat16.geometry v).clusterStart c = (33 + 2 * layout.sectorsPerFat) * 512 + (c - 2) * 4096 := by
    rw [h.geometry_eq hsound]
    simp only [Fat16.Geometry.clusterStart, Fat16.Geometry.dataSector, Fat16.Geometry.rootSector]
    omega
  have hsize : (Fat16.geometry v).sectorsPerCluster * (Fat16.geometry v).bytesPerSector = 4096 := by
    simp only [h.geometry_eq hsound, Nat.reduceMul]
  rw [Fat16.cluster, hstart, hsize]

theorem cluster_directory {i : Nat} {bytes : List UInt8} (hi : directories[i]? = some bytes) :
    Fat16.cluster v (2 + i) = bytes := by
  rw [h.cluster_eq hsound, Nat.add_sub_cancel_left, h.directory i bytes hi]

section Files

variable {size start c copy : Nat} {ds : List Nat} {files : List (List UInt8)} {file : List UInt8}
  (hplaces : places = placed start files) (hchained : Chained table size start ds files)
  (hstart : 2 ≤ start) (hfits : start + totalClusters files ≤ layout.clusterCount + 2)
include hplaces hchained hstart hfits

theorem chain_file (hfile : (c, file) ∈ places) (hpos : 0 < numClusters file) (hcopy : copy < 2) :
    Fat16.chain v copy c = some (List.range' c (numClusters file)) := by
  have hcount := h.clusterCount_ge hsound
  have hmarks := hsound.marks
  rw [hplaces] at hfile
  obtain ⟨hlow, hhigh⟩ := placed_bounds hfile
  refine Fat16.chain_range' hpos (by omega) (by omega) (by omega) fun i hi => ?_
  rw [h.fat_eq hsound hcopy, hchained.file c file hfile (c + i) (by omega) (by omega), link, kFatEoc]
  split_ifs <;> omega

omit hplaces hstart hfits in
theorem chain_directory {d : Nat} (hmarked : d ∈ ds) (hlow : 2 ≤ d) (hhigh : d < layout.clusterCount + 2)
    (hcopy : copy < 2) : Fat16.chain v copy d = some [d] := by
  have hcount := h.clusterCount_ge hsound
  have hmarks := hsound.marks
  refine @Fat16.chain_range' v copy d 1 (by omega) hlow (by omega) (by omega) fun i hi => ?_
  obtain rfl : i = 0 := by omega
  rw [h.fat_eq hsound hcopy, Nat.add_zero, hchained.directory d hmarked]
  rfl

omit hplaces hchained hstart hfits in
theorem contents_file (hfile : (c, file) ∈ places) (hlength : file.length < 2 ^ 32 - 4096) :
    (Fat16.contents v (List.range' c (numClusters file))).take file.length = file := by
  have hcount := numClusters_eq hlength
  refine @Fat16.contents_range' v c _ 4096 file (by omega) fun i hi => ?_
  rw [h.cluster_eq hsound, h.file c file hfile i hi]
  have hsize : clusterSize = 4096 := rfl
  grind [window]

end Files

end Holds

section Slots

variable {slots : List (List UInt8)} {name slot : List UInt8} {size k : Nat}

variable {attributes : UInt8} {firstCluster fileSize : Nat}

theorem dirEntry_length (hname : name.length = 11) :
    (dirEntry name attributes firstCluster fileSize).length = 32 := by
  simp only [dirEntry, writeLe16, List.length_append, List.length_replicate, hname, le32_length, List.length_cons,
    List.length_nil]

theorem setDirEntryName_length (name8 ext3 : Str) : (setDirEntryName name8 ext3).length = 11 := by
  simp only [setDirEntryName, List.length_append, List.length_take, List.length_replicate]
  omega

theorem ofSlot_dirEntry (hname : name.length = 11)
    (hcluster : firstCluster < 2 ^ 16) (hsize : fileSize < 2 ^ 32) :
    Fat16.Entry.ofSlot (dirEntry name attributes firstCluster fileSize) =
      ⟨name, attributes, firstCluster, fileSize⟩ := by
  have hhead : (name ++ ([attributes] ++ List.replicate 14 0)).length = 26 := by
    rw [List.length_append, hname]
    rfl
  have hparts : dirEntry name attributes firstCluster fileSize =
      (name ++ ([attributes] ++ List.replicate 14 0)) ++ (writeLe16 firstCluster ++ le32 fileSize) := by
    simp only [dirEntry, List.append_assoc]
  have htail : dirEntry name attributes firstCluster fileSize =
      ((name ++ ([attributes] ++ List.replicate 14 0)) ++ writeLe16 firstCluster) ++ (le32 fileSize ++ []) := by
    grind
  have hat : ((name ++ ([attributes] ++ List.replicate 14 0)) ++ writeLe16 firstCluster).length = 28 := by
    rw [List.length_append, hhead]
    rfl
  rw [Fat16.Entry.ofSlot, Fat16.Entry.mk.injEq]
  refine ⟨?_, ?_, ?_, ?_⟩
  · rw [dirEntry, List.take_left' hname]
  · simp [dirEntry, hname]
  · rw [hparts]
    exact u16At_append hcluster hhead
  grind [at32_append]

theorem flatten_length (hslots : ∀ slot ∈ slots, slot.length = 32) : slots.flatten.length = 32 * slots.length := by
  induction slots with
  | nil => rfl
  | cons slot slots ih =>
    grind

theorem directory_length (hslots : ∀ slot ∈ slots, slot.length = 32) (hsize : 32 * slots.length ≤ size) :
    (directory size slots).length = size := by
  rw [directory, List.length_append, flatten_length hslots, List.length_replicate]
  omega

theorem directory_slot (hslots : ∀ slot ∈ slots, slot.length = 32) (hslot : slots[k]? = some slot) :
    ((directory size slots).drop (32 * k)).take 32 = slot := by
  rw [directory]
  generalize List.replicate _ (0 : UInt8) = zeros
  induction slots generalizing k with
  | nil => cases hslot
  | cons first slots ih =>
    have hfirst := hslots first List.mem_cons_self
    rw [List.flatten_cons, List.append_assoc]
    cases k with
    | zero =>
      grind
    | succ k =>
      rw [Nat.mul_succ, Nat.add_comm, ← List.drop_drop, List.drop_left' hfirst]
      grind

end Slots

end Wirth.Toolchain.EfiImage

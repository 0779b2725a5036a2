import Wirth.Kernel.Efifs.Loader
import Wirth.Toolchain.EfiImage.Paths

namespace Wirth.Kernel.Efifs

open Wirth.Lib Wirth.Toolchain.EfiImage

def soughtName : List UInt8 := lit "ROOTFSSEED" ++ [0]

section Names

variable {name more : List UInt8}

theorem fat11Equal_iff {expected : Str} (hname : name.length = 11) (hexpected : expected.length ≤ 11) :
    fat11Equal (name ++ more) expected = true ↔ name = expected ++ List.replicate (11 - expected.length) 0 := by
  have hlength : (expected ++ List.replicate (11 - expected.length) (0 : UInt8)).length = 11 := by
    rw [List.length_append, List.length_replicate]
    omega
  simp only [fat11Equal, List.all_eq_true, List.mem_range, beq_iff_eq]
  constructor
  · intro h
    apply List.ext_getElem
    · rw [hname, hlength]
    · intro i hi hi'
      have := h i (by omega)
      grind
  grind

theorem searchSector_end {n : Nat} (h : more.getD 0 0 = 0) : searchSector n more = none := by
  cases n with
  | zero => rfl
  | succ n => rw [searchSector, if_pos h]

theorem searchSector_cons {n firstCluster size : Nat} {attributes : UInt8} (hname : name.length = 11)
    (hused : name.getD 0 0 ≠ 0 ∧ name.getD 0 0 ≠ 0xE5) (hlabel : attributes &&& 0x08 = 0)
    (hcluster : firstCluster < 2 ^ 16) (hsize : size < 2 ^ 32) :
    searchSector (n + 1) (dirEntry name attributes firstCluster size ++ more) =
      if name = soughtName then some (firstCluster, size) else searchSector n more := by
  have hentry := @ofSlot_dirEntry name attributes firstCluster size hname hcluster hsize
  have hlength : (dirEntry name attributes firstCluster size).length = 32 := dirEntry_length hname
  have hbyte : ∀ i, i < 32 → (dirEntry name attributes firstCluster size ++ more).getD i 0 =
      (dirEntry name attributes firstCluster size).getD i 0 := fun i hi =>
    List.getD_append _ _ _ _ (by omega)
  have hfirst : (dirEntry name attributes firstCluster size).getD 0 0 = name.getD 0 0 :=
    List.getD_append _ _ _ _ (by omega)
  have hattributes : (dirEntry name attributes firstCluster size).getD 11 0 = attributes :=
    congrArg Fat16.Entry.attributes hentry
  have hstart : u16At (dirEntry name attributes firstCluster size ++ more) 26 = firstCluster := by
    rw [u16At, hbyte 26 (by omega), hbyte 27 (by omega)]
    exact congrArg Fat16.Entry.firstCluster hentry
  have hfileSize : at32 (dirEntry name attributes firstCluster size ++ more) 28 = size := by
    rw [at32_congr fun k hk => hbyte (28 + k) (by omega)]
    exact congrArg Fat16.Entry.size hentry
  have hequal : fat11Equal (dirEntry name attributes firstCluster size ++ more) (lit "ROOTFSSEED") = true ↔
      name = soughtName := by
    rw [dirEntry, List.append_assoc]
    exact fat11Equal_iff hname (by decide +kernel)
  rw [searchSector, hbyte 0 (by omega), hfirst, hbyte 11 (by omega), hattributes, if_neg hused.1, if_neg hused.2,
    if_neg (by rw [hlabel]; exact fun h => h rfl), hstart, hfileSize, List.drop_left' hlength]
  simp only [hequal]

theorem searchSector_rootBoot {name : List UInt8} {sizes starts : PerFile Nat} {zeros : List UInt8}
    (hname : name.length = 11) (h32 : sizes.kernel32 < 2 ^ 32) (h64 : sizes.kernel64 < 2 ^ 32)
    (hpos : 0 < sizes.rootfs) (hseed : sizes.rootfs < 2 ^ 32) (hstart : starts.rootfs < 2 ^ 16)
    (hzeros : zeros.getD 0 0 = 0) :
    searchSector 16 ((rootBootSlots name sizes starts).flatten ++ zeros) =
      if name = soughtName then some (starts.rootfs, sizes.rootfs) else none := by
  have hcluster : ∀ start, uint16 start < 2 ^ 16 := fun start => Nat.mod_lt _ (by decide)
  have hpass : ∀ (slotName : Str) (attributes : UInt8) (first size n : Nat) (more : List UInt8),
      Usable slotName → slotName ≠ soughtName → attributes &&& 0x08 = 0 → first < 2 ^ 16 → size < 2 ^ 32 →
      searchSector (n + 1) (dirEntry slotName attributes first size ++ more) = searchSector n more := by
    intro slotName attributes first size n more husable hne hlabel hfirst hsize
    rw [searchSector_cons husable.1 husable.2 hlabel hfirst hsize, if_neg hne]
  have hgrub : searchSector 11 (writeDirEntry (lit "GRUB") [] 0x10 5 0 ++ zeros) = none := by
    rw [writeDirEntry, hpass _ _ _ _ _ _ (by decide +kernel) (by decide +kernel) (by decide) (by decide) (by decide),
      searchSector_end hzeros]
  have hslot : searchSector 12 (dirEntry name 0x20 (uint16 starts.rootfs) sizes.rootfs ++
      (writeDirEntry (lit "GRUB") [] 0x10 5 0 ++ zeros)) =
      if name = soughtName then some (starts.rootfs, sizes.rootfs) else none := by
    have hfirst : (dirEntry name 0x20 (uint16 starts.rootfs) sizes.rootfs ++
        (writeDirEntry (lit "GRUB") [] 0x10 5 0 ++ zeros)).getD 0 0 = name.getD 0 0 := by
      rw [dirEntry, List.append_assoc]
      exact List.getD_append _ _ _ _ (by omega)
    have hsought : Usable soughtName := by decide +kernel
    -- A name that ends the directory or marks a deleted entry is not the one sought.
    by_cases hused : name.getD 0 0 ≠ 0 ∧ name.getD 0 0 ≠ 0xE5
    · rw [searchSector_cons hname hused (by decide) (hcluster _) hseed, hgrub, uint16, Nat.mod_eq_of_lt hstart]
    · have hne : name ≠ soughtName := by
        rintro rfl
        exact hused hsought.2
      rw [if_neg hne, searchSector, hfirst]
      by_cases hend : name.getD 0 0 = 0
      · rw [if_pos hend]
      · have hdeleted : name.getD 0 0 = 0xE5 := by
          by_contra hkept
          exact hused ⟨hend, hkept⟩
        rw [if_neg hend, if_pos hdeleted, List.drop_left' (dirEntry_length hname), hgrub]
  rw [rootBootSlots, if_pos hpos]
  simp only [List.flatten_cons, List.flatten_nil, List.append_nil, List.append_assoc]
  rw [writeDotEntry, writeDotEntry, writeDirEntry, writeDirEntry, ← kernel_name, ← kernel64_name,
    hpass _ _ _ _ _ _ (by decide +kernel) (by decide +kernel) (by decide) (by decide) (by decide),
    hpass _ _ _ _ _ _ (by decide +kernel) (by decide +kernel) (by decide) (by decide) (by decide),
    hpass _ _ _ _ _ _ (by decide +kernel) (by decide +kernel) (by decide) (hcluster _) h32,
    hpass _ _ _ _ _ _ (by decide +kernel) (by decide +kernel) (by decide) (hcluster _) h64, hslot]

end Names

section Reading

variable {img : ByteImage} {read : ReadFn} (hread : ∀ lba, read lba = some (img.disk lba))
include hread

theorem readRange_eq {failure : Str} {lba count : Nat} :
    readRange read failure lba count = .ok (img.bytes (512 * lba) (512 * count)) := by
  induction count generalizing lba with
  | zero => rfl
  | succ count ih =>
    rw [readRange, hread, show 512 * (count + 1) = 512 + 512 * count by omega, ByteImage.bytes_add,
      show 512 * lba + 512 = 512 * (lba + 1) by omega, ← ByteImage.disk_bytes]
    simp only [ih]
    rfl

theorem searchCluster_none {lba left : Nat} (h : ∀ k, k < left → (img.bytes (512 * (lba + k)) 512).getD 0 0 = 0) :
    searchCluster read lba left = .ok none := by
  induction left generalizing lba with
  | zero => rfl
  | succ left ih =>
    have hfirst : searchSector 16 (img.disk lba).bytes = none := by
      rw [ByteImage.disk_bytes]
      exact searchSector_end (h 0 (by omega))
    grind [searchCluster]

-- Whatever the first sector says is said of the cluster, if the others start with an unused slot.
theorem searchCluster_eq {lba left : Nat} {found : Option (Nat × Nat)}
    (hfirst : searchSector 16 (img.bytes (512 * lba) 512) = found)
    (hrest : ∀ k, 0 < k → k < left + 1 → (img.bytes (512 * (lba + k)) 512).getD 0 0 = 0) :
    searchCluster read lba (left + 1) = .ok found := by
  rw [← ByteImage.disk_bytes] at hfirst
  rw [searchCluster, hread]
  simp only [hfirst]
  cases found with
  | some found => rfl
  | none =>
    refine searchCluster_none hread fun k hk => ?_
    grind

end Reading

-- The buffer has the first bytes of the file. As long as some are missing, it has whole sectors.
structure Filled (file buf : List UInt8) (remaining : Nat) : Prop where
  length : buf.length = fileBufSize
  le : remaining ≤ file.length
  data : buf.take (file.length - remaining) = file.take (file.length - remaining)
  whole : remaining = 0 ∨ 512 ∣ file.length - remaining

section Filling

variable {img : ByteImage} {read : ReadFn} (hread : ∀ lba, read lba = some (img.disk lba)) {file : List UInt8}
  (hsize : file.length ≤ fileBufSize)
include hsize

theorem Filled.step {buf sector : List UInt8} {remaining : Nat} (h : Filled file buf remaining) (hpos : 0 < remaining)
    (hlength : sector.length = 512)
    (hsector : sector.take (min remaining 512) = (file.drop (file.length - remaining)).take (min remaining 512)) :
    Filled file (splice buf (file.length - remaining) sector) (remaining - min remaining 512) := by
  have hle := h.le
  have hbuf := h.length
  have hfull : fileBufSize = 32768 := rfl
  obtain ⟨j, hj⟩ : 512 ∣ file.length - remaining := h.whole.resolve_left (by omega)
  have hfits : file.length - remaining + sector.length ≤ buf.length := by omega
  refine ⟨by rw [splice_length hfits, hbuf], by omega, ?_, ?_⟩
  · have hbefore : (buf.take (file.length - remaining)).length = file.length - remaining := by
      rw [List.length_take]
      omega
    have hnext : file.length - (remaining - min remaining 512) = file.length - remaining + min remaining 512 := by
      omega
    have hshort : min remaining 512 ≤ sector.length := by omega
    rw [hnext, splice, List.append_assoc, List.take_append, hbefore, Nat.add_sub_cancel_left,
      List.take_of_length_le (by omega), List.take_append_of_le_length hshort, hsector, h.data, List.take_add]
  omega

include hread

theorem readCluster_eq {lba left remaining : Nat} {buf : List UInt8} (h : Filled file buf remaining)
    (hsectors : ∀ k, k < left → 512 * k < remaining → (img.bytes (512 * (lba + k)) 512).take (min (remaining - 512 * k) 512) =
      (file.drop (file.length - remaining + 512 * k)).take (min (remaining - 512 * k) 512)) :
    ∃ buf', readCluster read file.length lba left buf remaining = .ok (buf', remaining - 512 * left) ∧
      Filled file buf' (remaining - 512 * left) := by
  induction left generalizing lba buf remaining with
  | zero => exact ⟨buf, rfl, h⟩
  | succ left ih =>
    rw [readCluster]
    by_cases hzero : remaining = 0
    · rw [if_pos hzero]
      refine ⟨buf, ?_, ?_⟩
      · rw [hzero, Nat.zero_sub]
      · rw [hzero, Nat.zero_sub]
        exact hzero ▸ h
    · have hle := h.le
      have hfirst := hsectors 0 (by omega) (by omega)
      rw [← ByteImage.disk_bytes] at hfirst
      have hstep := h.step hsize (by omega) (img.disk lba).length_eq hfirst
      rw [if_neg hzero, hread]
      have hrest : remaining - min remaining 512 - 512 * left = remaining - 512 * (left + 1) := by omega
      rw [← hrest]
      refine ih hstep fun k hk hmore => ?_
      grind

end Filling

theorem window_sector {file : List UInt8} {i k t : Nat} {zeros : List UInt8} (ht : t ≤ 512) (hk : k < 8)
    (hinside : 4096 * i + 512 * k + t ≤ file.length) :
    (((window file i ++ zeros).drop (512 * k)).take 512).take t = (file.drop (4096 * i + 512 * k)).take t := by
  have hwindow : (window file i).length = min 4096 (file.length - 4096 * i) := by
    rw [window, List.length_take, List.length_drop]
    rfl
  have hsize : clusterSize = 4096 := rfl
  rw [List.take_take, Nat.min_eq_left ht, List.drop_append_of_le_length (by omega),
    List.take_append_of_le_length (by rw [List.length_drop]; omega), window, hsize, List.drop_take, List.take_take,
    Nat.min_eq_left (by omega), List.drop_drop]

section Volume

variable {img : ByteImage} {read : ReadFn} (hread : ∀ lba, read lba = some (img.disk lba)) {layout : Layout}
  (hsound : layout.Sound) {table root : List UInt8} {directories : List (List UInt8)}
  {places : List (Nat × List UInt8)} (h : Holds img layout table root directories places)

def volumeBpb (layout : Layout) : Bpb := ⟨512, 8, 1, 2, 512, layout.sectorsPerFat⟩

include hsound h in
theorem bpb_eq : Bpb.ofSector (img.disk 0).bytes = volumeBpb layout := by
  have hgeometry := geometry_ofBootSector hsound 0
  rw [← h.boot] at hgeometry
  rw [ByteImage.disk_bytes, Nat.mul_zero, Bpb.ofSector, volumeBpb, Bpb.mk.injEq]
  generalize img.bytes 0 512 = boot at hgeometry
  exact ⟨congrArg Fat16.Geometry.bytesPerSector hgeometry, congrArg Fat16.Geometry.sectorsPerCluster hgeometry,
    congrArg Fat16.Geometry.reservedSectors hgeometry, congrArg Fat16.Geometry.fatCount hgeometry,
    congrArg Fat16.Geometry.rootEntryCount hgeometry, congrArg Fat16.Geometry.sectorsPerFat hgeometry⟩

theorem clusterSector_eq (c : Nat) :
    512 * (volumeBpb layout).clusterSector c = (33 + 2 * layout.sectorsPerFat) * 512 + (c - 2) * 4096 := by
  simp only [volumeBpb, Bpb.clusterSector, Bpb.firstDataSector, Bpb.firstRootDirSector, Bpb.rootDirSectors]
  omega

theorem clusterSector_bytes {c k : Nat} (hk : k < 8) : img.bytes (512 * ((volumeBpb layout).clusterSector c + k)) 512 =
    ((img.bytes ((33 + 2 * layout.sectorsPerFat) * 512 + (c - 2) * 4096) 4096).drop (512 * k)).take 512 := by
  rw [Nat.mul_add, clusterSector_eq, ByteImage.bytes_slice (show 512 * k + 512 ≤ 4096 by omega)]

variable {file : List UInt8} {c : Nat} (hsize : file.length ≤ fileBufSize) (hplace : (c, file) ∈ places) (hlow : 2 ≤ c)
  (hlinks : ∀ i, i < numClusters file → nextCluster table (c + i) = if i + 1 < numClusters file then c + i + 1 else 0xFFFF)
  (hmark : c + numClusters file ≤ 0xFFF8)
include hread h hsize hplace hlow hlinks hmark

theorem readChain_eq {m i fuel : Nat} {buf : List UInt8} (hi : i + m = numClusters file) (hfuel : m < fuel)
    (hfilled : Filled file buf (file.length - 4096 * i)) :
    ∃ buf', readChain (volumeBpb layout) read table file.length fuel (c + i) buf (file.length - 4096 * i) =
      .returned (.ok buf') ∧ Filled file buf' 0 := by
  have hfull : fileBufSize = 32768 := rfl
  have hcount := @numClusters_eq file (by omega)
  have hall : file.length ≤ 4096 * numClusters file := by
    omega
  induction m generalizing i fuel buf with
  | zero =>
    obtain ⟨fuel, rfl⟩ : ∃ n, fuel = n + 1 := ⟨fuel - 1, by omega⟩
    have hdone : file.length - 4096 * i = 0 := by omega
    rw [hdone] at hfilled ⊢
    simp [readChain, hfilled]
  | succ m ih =>
    obtain ⟨fuel, rfl⟩ : ∃ n, fuel = n + 1 := ⟨fuel - 1, by omega⟩
    obtain ⟨buf', hcluster, hfilled'⟩ := @readCluster_eq img read hread file hsize
      ((volumeBpb layout).clusterSector (c + i)) 8 _ _ hfilled (by
        intro k hk hmore
        rw [clusterSector_bytes hk, h.file c file hplace i (by omega),
          window_sector (Nat.min_le_right _ _) hk (by omega),
          show file.length - (file.length - 4096 * i) = 4096 * i by omega])
    have hremaining : file.length - 4096 * i - 512 * 8 = file.length - 4096 * (i + 1) := by omega
    rw [hremaining] at hcluster hfilled'
    have hnext := hlinks i (by omega)
    rw [readChain, if_pos (by omega)]
    rw [show (volumeBpb layout).sectorsPerCluster = 8 from rfl, hcluster]
    dsimp only
    by_cases hlast : i + 1 < numClusters file
    · rw [if_pos hlast] at hnext
      rw [hnext, if_neg (by omega)]
      exact ih (by omega) (by omega) hfilled'
    · have hdone : file.length - 4096 * (i + 1) = 0 :=
        Nat.sub_eq_zero_of_le (hall.trans (Nat.mul_le_mul_left _ (Nat.le_of_not_lt hlast)))
      grind

end Volume

def Reliable (usb ide : Backend) (d : Disk) : Prop :=
  ∃ read, selectBackend usb ide = some (read, d 0) ∧ ∀ lba, read lba = some (d lba)

section Written

variable {m : ByteImage} {layout : Layout} (hsound : layout.Sound) {files : PerFile (List UInt8)}
  {seedName : List UInt8} (hname : seedName.length = 11)
  (hfits : 6 + totalClusters files.toList ≤ layout.clusterCount + 2)
include hsound hname hfits

theorem written_holds : Holds (m.writes (kernelVolume seedName layout 0 files)) layout
    (fatTable layout (files.map numClusters) true) (writeRootDirectory layout 0 true).bytes
    (directoryClusters seedName (files.map fileSize) (kernelStarts files) true) (placed 6 files.toList) := by
  have hascending := @kernelVolume_ascending layout hsound 0 seedName files hname hfits
  have hholds := @kernelVolume_holds layout hsound 0 (m.writes (kernelVolume seedName layout 0 files)) seedName files
    hname hfits fun r hr => by
      have hread := @ByteImage.bytes_writes_of_pairwise m _ r [] [] hascending.pairwise hr fun s hs => absurd hs List.not_mem_nil
      rwa [List.nil_append, List.append_nil] at hread
  rwa [ByteImage.suffix_zero] at hholds

variable {img : ByteImage} {read : ReadFn} (hread : ∀ lba, read lba = some (img.disk lba))
  (h : Holds img layout (fatTable layout (files.map numClusters) true) (writeRootDirectory layout 0 true).bytes
    (directoryClusters seedName (files.map fileSize) (kernelStarts files) true) (placed 6 files.toList))
  (hlengths : ∀ file ∈ files.toList, file.length < 2 ^ 32 - 4096) (hseed : files.rootfs ≠ [])

omit hsound hfits in
include h hread hlengths hseed in
theorem searchCluster_boot (hstart : (kernelStarts files).rootfs < 2 ^ 16) :
    searchCluster read ((volumeBpb layout).clusterSector 4) 8 =
      .ok (if seedName = soughtName then some ((kernelStarts files).rootfs, files.rootfs.length) else none) := by
  have hbytes : img.bytes ((33 + 2 * layout.sectorsPerFat) * 512 + (4 - 2) * 4096) 4096 =
      directory clusterSize (rootBootSlots seedName (files.map fileSize) (kernelStarts files)) := h.directory 2 _ rfl
  have hflat := flatten_length (@rootBootSlots_lengths seedName (files.map fileSize) (kernelStarts files) hname)
  have hsix : (rootBootSlots seedName (files.map fileSize) (kernelStarts files)).length = 6 := rfl
  have hsize : clusterSize = 4096 := rfl
  rw [hsix] at hflat
  have hbound : ∀ file ∈ files.toList, fileSize file < 2 ^ 32 := fun file hfile => by
    grind [fileSize_eq]
  have hrootfs : (files.map fileSize).rootfs = files.rootfs.length :=
    fileSize_eq (hlengths files.rootfs (by simp [PerFile.toList]))
  refine searchCluster_eq hread ?_ fun k hpos hk => ?_
  · rw [← Nat.add_zero ((volumeBpb layout).clusterSector 4), clusterSector_bytes (by omega), hbytes, directory, hsix,
      hsize, Nat.mul_zero, List.drop_zero, List.take_append, List.take_of_length_le (by omega), hflat,
      List.take_replicate, ← hrootfs]
    refine searchSector_rootBoot hname (hbound files.kernel32 (by simp [PerFile.toList]))
      (hbound files.kernel64 (by simp [PerFile.toList])) ?_ (hbound files.rootfs (by simp [PerFile.toList])) hstart
      (replicate_zero_getD _ _)
    grind
  · rw [clusterSector_bytes (by omega), hbytes, directory, List.drop_append,
      List.drop_of_length_le (by omega), List.nil_append, List.drop_replicate, List.take_replicate]
    exact replicate_zero_getD _ _

omit hname in
theorem nextCluster_table {c : Nat} (hc : c < layout.clusterCount + 2) :
    nextCluster (fatTable layout (files.map numClusters) true) c =
      u16At (fatTable layout (files.map numClusters) true) (2 * c) := by
  have hentries := hsound.entries
  rw [nextCluster, (fatTable_kernel hsound hfits).length, if_neg (by omega), Nat.mul_comm]

include h hread hlengths hseed

theorem readSeed_eq (hsize : files.rootfs.length ≤ fileBufSize) {fileBuf : List UInt8}
    (hbuf : fileBuf.length = fileBufSize) :
    if seedName = soughtName then
      ∃ buf, readSeed (volumeBpb layout) read (fatTable layout (files.map numClusters) true) fileBuf 4 =
          .returned (.ok (buf, files.rootfs.length)) ∧ buf.take files.rootfs.length = files.rootfs
    else
      readSeed (volumeBpb layout) read (fatTable layout (files.map numClusters) true) fileBuf 4 =
        .returned (.error (lit "[efifs]: ROOTFS.SEED not found in BOOT dir\n")) := by
  have htable := fatTable_kernel hsound hfits
  have hmarks := hsound.marks
  obtain ⟨-, -, -, hstart, -⟩ := kernelStarts_lt hsound hfits
  have hplace : ((kernelStarts files).rootfs, files.rootfs) ∈ placed 6 files.toList := by
    simp [PerFile.toList, placed, kernelStarts]
  obtain ⟨hlow, hhigh⟩ := placed_bounds hplace
  have hchain : searchChain (volumeBpb layout) read (fatTable layout (files.map numClusters) true) maxSteps 4 =
      .returned (.ok (if seedName = soughtName then some ((kernelStarts files).rootfs, files.rootfs.length)
        else none)) := by
    have hnext : nextCluster (fatTable layout (files.map numClusters) true) 4 = 0xFFFF := by
      rw [nextCluster_table hsound hfits (by omega), htable.directory 4 (by decide)]
      rfl
    rw [maxSteps, searchChain, if_pos (by omega), show (volumeBpb layout).sectorsPerCluster = 8 from rfl,
      searchCluster_boot hname hread h hlengths hseed hstart]
    by_cases hfound : seedName = soughtName
    · rw [if_pos hfound]
    · rw [if_neg hfound]
      exact if_pos hnext
  rw [readSeed, hchain]
  by_cases hfound : seedName = soughtName
  · rw [if_pos hfound, if_pos hfound]
    have hlinks : ∀ i, i < numClusters files.rootfs →
        nextCluster (fatTable layout (files.map numClusters) true) ((kernelStarts files).rootfs + i) =
          if i + 1 < numClusters files.rootfs then (kernelStarts files).rootfs + i + 1 else 0xFFFF := by
      intro i hi
      rw [nextCluster_table hsound hfits (by omega), htable.file _ _ hplace _ (by omega) (by omega), link, kFatEoc]
      split_ifs <;> omega
    have hempty : Filled files.rootfs fileBuf (files.rootfs.length - 4096 * 0) :=
      ⟨hbuf, by omega, by simp,
        Or.inr (by omega)⟩
    have hsteps : maxSteps = 65537 := rfl
    obtain ⟨buf, hbuf', hfilled⟩ := readChain_eq hread h hsize hplace (by omega) hlinks (by omega)
      (Nat.zero_add _) (by omega : numClusters files.rootfs < maxSteps) hempty
    rw [Nat.add_zero, Nat.mul_zero, Nat.sub_zero] at hbuf'
    refine ⟨buf, ?_, ?_⟩
    · simp only [Ended.returned_bind]
      rw [if_neg (by omega), if_neg (by omega), hbuf', Ended.returned_bind]
    · have := hfilled.data
      rwa [Nat.sub_zero, List.take_length] at this
  · rw [if_neg hfound, if_neg hfound]
    rfl

end Written

section Load

variable {m : ByteImage} {layout : Layout} {files : PerFile (List UInt8)} {seedName : List UInt8} {usb ide : Backend}
  {fileBuf : List UInt8}

theorem loadSeed_of_reads {read : ReadFn} {sector : Sector} {bpb : Bpb} {root fat : List UInt8} {c : Nat}
    (hselect : selectBackend usb ide = some (read, sector)) (hbpb : Bpb.ofSector sector.bytes = bpb)
    (hbytes : bpb.bytesPerSector = 512) (hrootSize : ¬rootBufSize < bpb.rootDirSectors * bpb.bytesPerSector)
    (hroot : readRange read (lit "[efifs]: failed reading root dir\n") bpb.firstRootDirSector bpb.rootDirSectors =
      .ok root)
    (hboot : findBootDir bpb.rootEntryCount root = c) (hc : c ≠ 0)
    (hfat : readRange read (lit "[efifs]: failed reading FAT\n") bpb.reservedSectors bpb.sectorsPerFat = .ok fat) :
    loadSeed usb ide fileBuf =
      if fatBufSize < bpb.sectorsPerFat * 512 then .returned (.error (lit "[efifs]: FAT too large\n"))
      else readSeed bpb read fat fileBuf c := by
  rw [loadSeed, hselect]
  grind

section Steps

variable {img : ByteImage} {read : ReadFn} (hread : ∀ lba, read lba = some (img.disk lba)) {table root : List UInt8}
  {directories : List (List UInt8)} {places : List (Nat × List UInt8)}
  (h : Holds img layout table root directories places)
include hread h

theorem readRange_root {failure : Str} :
    readRange read failure (volumeBpb layout).firstRootDirSector (volumeBpb layout).rootDirSectors = .ok root := by
  have hfirst : 512 * (volumeBpb layout).firstRootDirSector = (1 + 2 * layout.sectorsPerFat) * 512 := by
    simp only [volumeBpb, Bpb.firstRootDirSector]
    omega
  have hcount : 512 * (volumeBpb layout).rootDirSectors = 16384 := by
    simp only [volumeBpb, Bpb.rootDirSectors, Nat.reduceMul, Nat.reduceAdd, Nat.reduceSub, Nat.reduceDiv]
  rw [readRange_eq hread, hfirst, hcount, h.root]

theorem readRange_fat {failure : Str} :
    readRange read failure (volumeBpb layout).reservedSectors (volumeBpb layout).sectorsPerFat = .ok table := by
  have hfirst : 512 * (volumeBpb layout).reservedSectors = (1 + 0 * layout.sectorsPerFat) * 512 := by
    simp only [volumeBpb, Nat.zero_mul, Nat.add_zero, Nat.mul_one, Nat.one_mul]
  have hcount : (volumeBpb layout).sectorsPerFat = layout.sectorsPerFat := by rw [volumeBpb]
  rw [readRange_eq hread, hfirst, hcount, h.fat 0 (by decide)]

end Steps

theorem findBootDir_root : findBootDir (volumeBpb layout).rootEntryCount (writeRootDirectory layout 0 true).bytes = 4 := by
  have hcount : (volumeBpb layout).rootEntryCount = 512 := by rw [volumeBpb]
  have hbytes : (writeRootDirectory layout 0 true).bytes = directory 16384 [writeVolumeLabelEntry (lit "wirth ESP"),
      writeDirEntry (lit "EFI") [] 0x10 2 0, writeDirEntry (lit "BOOT") [] 0x10 4 0] := by
    rfl
  rw [hcount, hbytes]
  decide +kernel

theorem rootDirectory_fits : ¬rootBufSize < (volumeBpb layout).rootDirSectors * (volumeBpb layout).bytesPerSector := by
  have hsectors : (volumeBpb layout).rootDirSectors = 32 := by
    simp only [volumeBpb, Bpb.rootDirSectors, Nat.reduceMul, Nat.reduceAdd, Nat.reduceSub, Nat.reduceDiv]
  have hbytes : (volumeBpb layout).bytesPerSector = 512 := by rw [volumeBpb]
  rw [hsectors, hbytes, rootBufSize]
  exact Nat.lt_irrefl _

theorem loadSeed_eq (hsound : layout.Sound) (hname : seedName.length = 11)
    (hfits : 6 + totalClusters files.toList ≤ layout.clusterCount + 2)
    (hreliable : Reliable usb ide (m.writes (kernelVolume seedName layout 0 files)).disk) :
    ∃ read, (∀ lba, read lba = some ((m.writes (kernelVolume seedName layout 0 files)).disk lba)) ∧
      loadSeed usb ide fileBuf =
        if 32 < layout.sectorsPerFat then .returned (.error (lit "[efifs]: FAT too large\n"))
        else readSeed (volumeBpb layout) read (fatTable layout (files.map numClusters) true) fileBuf 4 := by
  obtain ⟨read, hselect, hread⟩ := hreliable
  have h := @written_holds m layout hsound files seedName hname hfits
  have hbytes : (volumeBpb layout).bytesPerSector = 512 := by rw [volumeBpb]
  have hspf : (volumeBpb layout).sectorsPerFat = layout.sectorsPerFat := by rw [volumeBpb]
  refine ⟨read, hread, ?_⟩
  rw [loadSeed_of_reads hselect (bpb_eq hsound h) hbytes rootDirectory_fits (readRange_root hread h) findBootDir_root (by decide)
    (readRange_fat hread h), hspf]
  have hbuf : fatBufSize = 16384 := rfl
  grind

-- The kernel reads the seed back if and only if it was recorded under the name that the kernel
-- looks for and the tables fit into its buffer. The tool records it under another name.
theorem seed_read_back_iff (hsound : layout.Sound) (hname : seedName.length = 11)
    (hfits : 6 + totalClusters files.toList ≤ layout.clusterCount + 2)
    (hlengths : ∀ file ∈ files.toList, file.length < 2 ^ 32 - 4096)
    (hseed : 1 ≤ files.rootfs.length ∧ files.rootfs.length ≤ 32768) (hbuf : fileBuf.length = fileBufSize)
    (hreliable : Reliable usb ide (m.writes (kernelVolume seedName layout 0 files)).disk) :
    ((∃ buf, loadSeed usb ide fileBuf = .returned (.ok (buf, files.rootfs.length)) ∧
        buf.take files.rootfs.length = files.rootfs) ↔
      seedName = soughtName ∧ layout.sectorsPerFat ≤ 32) ∧
      rootfsSeedName ≠ soughtName := by
  obtain ⟨read, hread, hload⟩ := @loadSeed_eq m layout files seedName usb ide fileBuf hsound hname hfits hreliable
  have hne : files.rootfs ≠ [] := List.ne_nil_of_length_pos (by omega)
  have hread' := readSeed_eq hsound hname hfits hread (written_holds hsound hname hfits) hlengths hne hseed.2 hbuf
  refine ⟨?_, by decide +kernel⟩
  rw [hload]
  by_cases hlarge : 32 < layout.sectorsPerFat
  · rw [if_pos hlarge]
    constructor
    · rintro ⟨buf, hbuf, -⟩
      cases hbuf
    · rintro ⟨-, hsmall⟩
      omega
  · rw [if_neg hlarge]
    by_cases hfound : seedName = soughtName
    · rw [if_pos hfound] at hread'
      exact ⟨fun _ => ⟨hfound, by omega⟩, fun _ => hread'⟩
    · rw [if_neg hfound] at hread'
      rw [hread']
      constructor
      · rintro ⟨buf, hbuf, -⟩
        cases hbuf
      · rintro ⟨hequal, -⟩
        exact absurd hequal hfound

end Load

def seedFiles : PerFile (List UInt8) := ⟨[], [], [], lit "md /a\n", []⟩

def stick (seedName : List UInt8) : Backend :=
  ⟨true, fun lba => some ((ByteImage.zero.writes (kernelVolume seedName bootLayout 0 seedFiles)).disk lba)⟩

def noDisk : Backend := ⟨false, fun _ => none⟩

def emptyBuf : List UInt8 := List.replicate fileBufSize 0

theorem stick_reliable (seedName : List UInt8) : Reliable (stick seedName) noDisk
    (ByteImage.zero.writes (kernelVolume seedName bootLayout 0 seedFiles)).disk :=
  ⟨_, rfl, fun _ => rfl⟩

theorem seedFiles_fit : 6 + totalClusters seedFiles.toList ≤ bootLayout.clusterCount + 2 := by decide +kernel

theorem seedFiles_lengths : ∀ file ∈ seedFiles.toList, file.length < 2 ^ 32 - 4096 := by decide +kernel

-- What the tool writes is not found.
theorem seed_not_found : loadSeed (stick rootfsSeedName) noDisk emptyBuf =
    .returned (.error (lit "[efifs]: ROOTFS.SEED not found in BOOT dir\n")) := by
  have hname : rootfsSeedName.length = 11 := by decide +kernel
  have hbuf : emptyBuf.length = fileBufSize := List.length_replicate
  obtain ⟨read, hread, hload⟩ := @loadSeed_eq _ _ _ _ _ _ emptyBuf bootLayout_sound hname seedFiles_fit
    (stick_reliable rootfsSeedName)
  have hseed := readSeed_eq bootLayout_sound hname seedFiles_fit hread
    (written_holds bootLayout_sound hname seedFiles_fit) seedFiles_lengths (by decide +kernel) (by decide +kernel) hbuf
  rw [if_neg (by decide +kernel)] at hseed
  rw [hload, if_neg (by decide +kernel), hseed]

theorem renamed_seed_read_back : ∃ buf, loadSeed (stick soughtName) noDisk emptyBuf =
    .returned (.ok (buf, 6)) ∧ buf.take 6 = lit "md /a\n" := by
  have hlength : seedFiles.rootfs.length = 6 := by decide +kernel
  have hiff := (seed_read_back_iff bootLayout_sound (by decide +kernel) seedFiles_fit seedFiles_lengths
    (by rw [hlength]; decide) (@List.length_replicate _ fileBufSize 0) (stick_reliable soughtName)).1
  rw [hlength] at hiff
  exact hiff.mpr ⟨rfl, by decide +kernel⟩

end Wirth.Kernel.Efifs

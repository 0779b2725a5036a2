import Wirth.Toolchain.EfiImage.Contents

namespace Wirth.Toolchain.EfiImage

open Wirth.Lib

def bootLayout : Layout := computeLayout kBootPartitionMiB

theorem bootLayout_sound : bootLayout.Sound := computeLayout_sound (by decide) (by decide)

theorem bootLayout_clusterCount : bootLayout.clusterCount = 8179 := by decide +kernel

-- The files that go onto the boot volume. The seed is not one of them.
def onVolume (files : PerFile (List UInt8)) : PerFile (List UInt8) := { files with rootfs := [] }

theorem onVolume_lengths {files : PerFile (List UInt8)} (h : ∀ file ∈ files.toList, file.length < 2 ^ 32 - 4096) :
    ∀ file ∈ (onVolume files).toList, file.length < 2 ^ 32 - 4096 := by
  simp only [PerFile.toList, onVolume, List.forall_mem_cons] at h ⊢
  grind

-- An image with a boot volume that nothing else is written over.
structure Output.Carries (out : Output) (volume : List Region) : Prop where
  volume_eq : out.volume = volume
  after : ∀ r ∈ out.after, out.base + bootLayout.totalSectors * 512 ≤ r.start

theorem Output.Carries.readback {out : Output} {volume : List Region} (h : out.Carries volume)
    (hascending : InOrder out.base volume (out.base + bootLayout.totalSectors * 512)) :
    ∀ r ∈ volume, out.image.bytes r.start r.bytes.length = r.bytes := by
  intro r hr
  rw [Output.image, h.volume_eq]
  refine ByteImage.bytes_writes_of_pairwise hascending.pairwise hr fun s hs => Or.inl ?_
  exact Nat.le_trans (hascending.bounds hr).2 (h.after s hs)

section Build

variable {opts : Options} {host : Host} {files : PerFile (List UInt8)}

theorem writePlainImage_cases {efi : List UInt8} (hlength : efi.length < 2 ^ 32 - 4096)
    (hfits : 4 + numClusters efi < 2 ^ 16) :
    ∃ r, writePlainImage bootLayout efi opts host = .returned r ∧
      ∀ out, r = .ok out → out.base = 0 ∧ out.Carries (plainVolume bootLayout out.base efi) := by
  have hwritten : writeFiles bootLayout 0 [(4, efi)] = .returned _ := writeFiles_eq (by
    simpa using ⟨hlength, hfits⟩)
  rw [writePlainImage, hwritten]
  split_ifs
  iterate 3 exact ⟨_, rfl, fun out h => by cases h⟩
  · refine ⟨_, rfl, fun out h => ?_⟩
    cases h
    exact ⟨rfl, rfl, fun r hr => absurd hr List.not_mem_nil⟩

theorem kernelVolume_onVolume {layout : Layout} {base : Nat} :
    kernelVolume rootfsSeedName layout base (onVolume files) =
      writeBootSector layout base :: writeFatTables layout base ⟨numClusters files.efi, numClusters files.kernel32,
        numClusters files.kernel64, 0, numClusters files.grubCfg⟩ true ++
      writeRootDirectory layout base true :: writeDirectoryClusters rootfsSeedName layout base
        ⟨fileSize files.efi, fileSize files.kernel32, fileSize files.kernel64, 0, fileSize files.grubCfg⟩
        ⟨6, 6 + numClusters files.efi, 6 + numClusters files.efi + numClusters files.kernel32, 0,
          6 + numClusters files.efi + numClusters files.kernel32 + numClusters files.kernel64⟩ true ++
      (placed 6 [files.efi, files.kernel32, files.kernel64, files.grubCfg]).flatMap (fileRegions layout base) := by
  have hsize : fileSize [] = 0 := rfl
  have hseed : ∀ start, fileRegions layout base (start, []) = [] := by
    intro start
    rw [fileRegions, numClusters_nil]
    rfl
  simp only [kernelVolume, volumeRegions, writeDirectoryClusters, directoryClusters, rootBootSlots, onVolume,
    kernelStarts, PerFile.map, PerFile.toList, placed, numClusters_nil, hsize, Nat.lt_irrefl, if_false,
    Nat.add_zero, List.flatMap_cons, hseed, List.nil_append]

variable {totalDiskSectors : Nat} {boot persistent : Partition} {ext4Binary : List UInt8}

theorem writeDiskImage_eq (hlengths : ∀ file ∈ (onVolume files).toList, file.length < 2 ^ 32 - 4096)
    (hfits : 6 + totalClusters (onVolume files).toList < 2 ^ 16) :
    ∃ out : Output, (out.base = boot.startSector * 512 ∧
        out.volume = kernelVolume rootfsSeedName bootLayout out.base (onVolume files) ∧
        out.after = [⟨persistent.startSector * 512, ext4Binary⟩, ⟨totalDiskSectors * 512 - 1, [0]⟩]) ∧
      writeDiskImage bootLayout files totalDiskSectors boot persistent ext4Binary host =
        .returned (if !host.flush then .error (lit "failed while writing EFI image\n") else .ok out) := by
  simp only [totalClusters, PerFile.toList, onVolume, List.map_cons, List.map_nil, List.sum_cons, List.sum_nil,
    numClusters_nil] at hfits
  have hstarts : startClusters files = ⟨6, 6 + numClusters files.efi,
      6 + numClusters files.efi + numClusters files.kernel32, 0,
      6 + numClusters files.efi + numClusters files.kernel32 + numClusters files.kernel64⟩ := by
    rw [startClusters]
    simp only [uint32_eq_self (show 6 + numClusters files.efi < 2 ^ 32 by omega),
      uint32_eq_self (show 6 + numClusters files.efi + numClusters files.kernel32 < 2 ^ 32 by omega),
      uint32_eq_self (show 6 + numClusters files.efi + numClusters files.kernel32 +
        numClusters files.kernel64 < 2 ^ 32 by omega)]
  have hwritten : ∀ base, writeFiles bootLayout base
      (placed 6 [files.efi, files.kernel32, files.kernel64, files.grubCfg]) = .returned _ := fun base =>
    writeFiles_eq (by
      simp only [onVolume, PerFile.toList, List.forall_mem_cons] at hlengths
      simp only [placed, List.forall_mem_cons]
      grind)
  refine ⟨diskOutput bootLayout files totalDiskSectors boot persistent ext4Binary
    ((placed 6 [files.efi, files.kernel32, files.kernel64, files.grubCfg]).flatMap
      (fileRegions bootLayout (boot.startSector * kBytesPerSector))), ⟨rfl, ?_, rfl⟩, ?_⟩
  · rw [kernelVolume_onVolume, ← hstarts]
    rfl
  grind [placed, writeDiskImage, Ended.returned_bind]

theorem buildDiskImage_cases (hlengths : ∀ file ∈ (onVolume files).toList, file.length < 2 ^ 32 - 4096)
    (hfits : 6 + totalClusters (onVolume files).toList < 2 ^ 16) :
    ∃ r, buildDiskImage bootLayout files opts host = .returned r ∧
      ∀ out, r = .ok out → out.base = 2048 * 512 ∧
        out.Carries (kernelVolume rootfsSeedName bootLayout out.base (onVolume files)) := by
  have hfail : ∀ message : Str, ∃ r : Except Str Output, Ended.returned (Except.error message) =
      Ended.returned r ∧ ∀ out, r = .ok out → out.base = 2048 * 512 ∧
        out.Carries (kernelVolume rootfsSeedName bootLayout out.base (onVolume files)) :=
    fun message => ⟨_, rfl, fun out h => by cases h⟩
  rw [buildDiskImage]
  by_cases hbig : kPartitionAlignmentSectors + bootLayout.totalSectors <
      opts.sizeMiB * 1024 * 1024 / kBytesPerSector
  · rw [if_pos hbig]
    iterate 4
      split
      · exact hfail _
    cases host.ext4Image with
    | none => exact hfail _
    | some ext4Binary =>
      dsimp only
      iterate 3
        split
        · exact hfail _
      obtain ⟨out', hout, hwritten⟩ := writeDiskImage_eq hlengths hfits
      refine ⟨_, hwritten, fun out h => ?_⟩
      obtain rfl : out' = out := by
        split_ifs at h
        exact Except.ok.inj h
      obtain ⟨hbase, hvolume, hafter⟩ := hout
      refine ⟨hbase, hvolume, fun region hregion => ?_⟩
      -- The other partition and the byte that sizes the disk come after the volume.
      grind
  · rw [if_neg hbig, if_pos rfl]
    exact hfail _

theorem build_cases (hread : readInputs opts host = .ok files)
    (hlengths : ∀ file ∈ files.toList, file.length < 2 ^ 32 - 4096) :
    ∃ r, build opts host = .returned r ∧ ∀ out, r = .ok out →
      if opts.includeKernelFiles then
        6 + totalClusters (onVolume files).toList ≤ bootLayout.clusterCount + 2 ∧ out.base = 2048 * 512 ∧
          out.Carries (kernelVolume rootfsSeedName bootLayout out.base (onVolume files))
      else
        4 + numClusters files.efi ≤ bootLayout.clusterCount + 2 ∧ out.base = 0 ∧
          out.Carries (plainVolume bootLayout out.base files.efi) := by
  have hcount := bootLayout_clusterCount
  have hclusters : ∀ file ∈ files.toList, numClusters file ≤ 2 ^ 20 := by
    intro file hfile
    have hlength := hlengths file hfile
    rw [numClusters_eq hlength]
    omega
  simp only [PerFile.toList, List.forall_mem_cons] at hclusters
  obtain ⟨hefi, h32, h64, -, hgrub, -⟩ := hclusters
  rw [build, hread]
  change ∃ r, (if bootLayout.clusterCount < _ then _ else _) = Ended.returned r ∧ _
  by_cases hsmall : bootLayout.clusterCount < requiredDataClusters files opts.includeKernelFiles
  · simp [hsmall]
  rw [if_neg hsmall]
  by_cases hkernel : opts.includeKernelFiles
  · rw [requiredDataClusters, if_pos hkernel, uint32_eq_self (by omega)] at hsmall
    have hfits : 6 + totalClusters (onVolume files).toList ≤ bootLayout.clusterCount + 2 := by
      simp only [totalClusters, PerFile.toList, onVolume, List.map_cons, List.map_nil, List.sum_cons, List.sum_nil,
        numClusters_nil]
      omega
    obtain ⟨r, hr, hout⟩ := @buildDiskImage_cases opts host files (onVolume_lengths hlengths) (by omega)
    simp only [if_pos hkernel]
    exact ⟨r, hr, fun out h => ⟨hfits, hout out h⟩⟩
  · rw [requiredDataClusters, if_neg hkernel, uint32_eq_self (by omega)] at hsmall
    have hefiLength := hlengths files.efi List.mem_cons_self
    obtain ⟨r, hr, hout⟩ := @writePlainImage_cases opts host files.efi hefiLength (by omega)
    simp only [if_neg hkernel]
    exact ⟨r, hr, fun out h => ⟨by omega, hout out h⟩⟩

end Build

def filed (files : PerFile (List UInt8)) (includeKernelFiles : Bool) : List Filed :=
  if includeKernelFiles then
    let starts := kernelStarts (onVolume files)
    [⟨3, 2, lit "BOOTX64 EFI", starts.efi, files.efi⟩, ⟨4, 2, lit "KERNEL  ELF", starts.kernel32, files.kernel32⟩,
      ⟨4, 3, lit "KERNEL64ELF", starts.kernel64, files.kernel64⟩,
      ⟨5, 2, lit "GRUB    CFG", starts.grubCfg, files.grubCfg⟩]
  else [⟨3, 2, lit "BOOTX64 EFI", 4, files.efi⟩]

def directoryNumbers (includeKernelFiles : Bool) : List Nat := if includeKernelFiles then [2, 3, 4, 5] else [2, 3]

section Entries

variable {v : ByteImage} {layout : Layout} {table root : List UInt8} {directories : List (List UInt8)}
  {places : List (Nat × List UInt8)}

theorem fileSize_eq {file : List UInt8} (hlength : file.length < 2 ^ 32 - 4096) : fileSize file = file.length := by
  grind [fileSize, uint32_eq_self]

theorem Holds.entry_eq (h : Holds v layout table root directories places) (hsound : layout.Sound) {i k first : Nat}
    {slots : List (List UInt8)} {name bytes : List UInt8} (hi : directories[i]? = some (EfiImage.directory clusterSize slots))
    (hslots : ∀ slot ∈ slots, slot.length = 32)
    (hk : slots[k]? = some (dirEntry name 0x20 (uint16 first) (fileSize bytes)))
    (hname : name.length = 11) (hfirst : first < 2 ^ 16) (hlength : bytes.length < 2 ^ 32 - 4096) :
    (⟨2 + i, k, name, first, bytes⟩ : Filed).entry v = ⟨name, 0x20, first, bytes.length⟩ := by
  have hfirst' : uint16 first = first := Nat.mod_eq_of_lt hfirst
  rw [Filed.entry, h.cluster_directory hsound hi, directory_slot hslots hk, fileSize_eq hlength, hfirst']
  exact ofSlot_dirEntry hname hfirst (by omega)

theorem three_slots {parent : Nat} {self : Nat} {name8 ext3 : Str} {attributes : UInt8} {first size : Nat} :
    ∀ slot ∈ [writeDotEntry false self, writeDotEntry true parent, writeDirEntry name8 ext3 attributes first size],
      slot.length = 32 := by
  simp [writeDotEntry_length, writeDirEntry_length]

theorem bootx64_name : lit "BOOTX64 EFI" = setDirEntryName (lit "BOOTX64") (lit "EFI") := by decide +kernel

theorem kernel_name : lit "KERNEL  ELF" = setDirEntryName (lit "KERNEL") (lit "ELF") := by decide +kernel

theorem kernel64_name : lit "KERNEL64ELF" = setDirEntryName (lit "KERNEL64") (lit "ELF") := by decide +kernel

theorem grubCfg_name : lit "GRUB    CFG" = setDirEntryName (lit "GRUB") (lit "CFG") := by decide +kernel

variable {files : PerFile (List UInt8)} {seedName : List UInt8}

theorem kernelStarts_lt (hsound : layout.Sound)
    (hfits : 6 + totalClusters files.toList ≤ layout.clusterCount + 2) :
    (kernelStarts files).efi < 2 ^ 16 ∧ (kernelStarts files).kernel32 < 2 ^ 16 ∧
      (kernelStarts files).kernel64 < 2 ^ 16 ∧ (kernelStarts files).rootfs < 2 ^ 16 ∧
      (kernelStarts files).grubCfg < 2 ^ 16 := by
  have hmarks := hsound.marks
  simp only [totalClusters, PerFile.toList, List.map_cons, List.map_nil, List.sum_cons, List.sum_nil] at hfits
  simp only [kernelStarts]
  omega

-- The entries of the four files, whatever there is for the seed.
theorem kernel_entries (hsound : layout.Sound) (hseed : seedName.length = 11)
    (hfits : 6 + totalClusters files.toList ≤ layout.clusterCount + 2)
    (hlengths : ∀ file ∈ files.toList, file.length < 2 ^ 32 - 4096)
    (h : Holds v layout table root (directoryClusters seedName (files.map fileSize) (kernelStarts files) true) places) :
    (⟨3, 2, lit "BOOTX64 EFI", (kernelStarts files).efi, files.efi⟩ : Filed).entry v =
        ⟨lit "BOOTX64 EFI", 0x20, (kernelStarts files).efi, files.efi.length⟩ ∧
      (⟨4, 2, lit "KERNEL  ELF", (kernelStarts files).kernel32, files.kernel32⟩ : Filed).entry v =
        ⟨lit "KERNEL  ELF", 0x20, (kernelStarts files).kernel32, files.kernel32.length⟩ ∧
      (⟨4, 3, lit "KERNEL64ELF", (kernelStarts files).kernel64, files.kernel64⟩ : Filed).entry v =
        ⟨lit "KERNEL64ELF", 0x20, (kernelStarts files).kernel64, files.kernel64.length⟩ ∧
      (⟨5, 2, lit "GRUB    CFG", (kernelStarts files).grubCfg, files.grubCfg⟩ : Filed).entry v =
        ⟨lit "GRUB    CFG", 0x20, (kernelStarts files).grubCfg, files.grubCfg.length⟩ := by
  simp only [PerFile.toList, List.forall_mem_cons] at hlengths
  obtain ⟨hefi, h32, h64, -, hgrub, -⟩ := hlengths
  obtain ⟨hstart, hstart32, hstart64, -, hstartGrub⟩ := kernelStarts_lt hsound hfits
  rw [bootx64_name, kernel_name, kernel64_name, grubCfg_name]
  refine ⟨?_, ?_, ?_, ?_⟩
  · exact @Holds.entry_eq _ _ _ _ _ _ h hsound 1 2 _ _ _ _ rfl three_slots rfl (setDirEntryName_length _ _)
      hstart hefi
  · exact @Holds.entry_eq _ _ _ _ _ _ h hsound 2 2 _ _ _ _ rfl (rootBootSlots_lengths hseed) rfl
      (setDirEntryName_length _ _) hstart32 h32
  · exact @Holds.entry_eq _ _ _ _ _ _ h hsound 2 3 _ _ _ _ rfl (rootBootSlots_lengths hseed) rfl
      (setDirEntryName_length _ _) hstart64 h64
  · exact @Holds.entry_eq _ _ _ _ _ _ h hsound 3 2 _ _ _ _ rfl three_slots rfl (setDirEntryName_length _ _)
      hstartGrub hgrub

end Entries

section Stored

variable {v : ByteImage} {files : PerFile (List UInt8)} {root : List UInt8}

theorem placed_onVolume {place : Nat × List UInt8}
    (h : place ∈ placed 6 [files.efi, files.kernel32, files.kernel64, files.grubCfg]) :
    place ∈ placed 6 (onVolume files).toList := by
  simp only [placed, onVolume, PerFile.toList, numClusters_nil, Nat.add_zero, List.mem_cons, List.not_mem_nil,
    or_false] at h ⊢
  tauto

theorem totalClusters_onVolume : totalClusters (onVolume files).toList =
    totalClusters [files.efi, files.kernel32, files.kernel64, files.grubCfg] := by
  simp only [totalClusters, onVolume, PerFile.toList, List.map_cons, List.map_nil, List.sum_cons, List.sum_nil,
    numClusters_nil, Nat.zero_add]

theorem kernel_stored (hfits : 6 + totalClusters (onVolume files).toList ≤ bootLayout.clusterCount + 2)
    (hlengths : ∀ file ∈ (onVolume files).toList, file.length < 2 ^ 32 - 4096)
    (h : Holds v bootLayout (fatTable bootLayout ((onVolume files).map numClusters) true) root
      (directoryClusters rootfsSeedName ((onVolume files).map fileSize) (kernelStarts (onVolume files)) true)
      (placed 6 (onVolume files).toList)) :
    Stored v (directoryNumbers true) (filed files true) := by
  have htable := fatTable_kernel bootLayout_sound hfits
  have hfour : Holds v bootLayout _ root _ (placed 6 [files.efi, files.kernel32, files.kernel64, files.grubCfg]) :=
    ⟨h.boot, h.fat, h.root, h.directory, fun c file hfile => h.file c file (placed_onVolume hfile)⟩
  have hchained : Chained _ _ 6 _ [files.efi, files.kernel32, files.kernel64, files.grubCfg] :=
    ⟨htable.length, htable.directory, fun c file hfile => htable.file c file (placed_onVolume hfile)⟩
  obtain ⟨hefi, h32, h64, hgrub⟩ :=
    kernel_entries bootLayout_sound (setDirEntryName_length _ _) hfits hlengths h
  rw [totalClusters_onVolume] at hfits
  have hplaces : (filed files true).map (fun f => (f.first, f.bytes)) =
      placed 6 [files.efi, files.kernel32, files.kernel64, files.grubCfg] := by
    simp only [filed, if_true, kernelStarts, onVolume, numClusters_nil, Nat.add_zero, placed, List.map_cons, List.map_nil]
  refine stored_of_holds bootLayout_sound hfour hchained (by omega) hfits (by decide) (by decide) ?_ hplaces ?_
  · simp only [onVolume, PerFile.toList, List.forall_mem_cons] at hlengths ⊢
    grind
  · rw [filed, if_pos rfl]
    simp only [List.forall_mem_cons]
    exact ⟨hefi, h32, h64, hgrub, fun f hf => absurd hf List.not_mem_nil⟩

theorem plain_stored (hfits : 4 + numClusters files.efi ≤ bootLayout.clusterCount + 2)
    (hlength : files.efi.length < 2 ^ 32 - 4096)
    (h : Holds v bootLayout (fatTable bootLayout ⟨numClusters files.efi, 0, 0, 0, 0⟩ false) root
      (directoryClusters rootfsSeedName ⟨fileSize files.efi, 0, 0, 0, 0⟩ ⟨4, 0, 0, 0, 0⟩ false)
      (placed 4 [files.efi])) :
    Stored v (directoryNumbers false) (filed files false) := by
  have hroom : 4 ≤ bootLayout.clusterCount := by rw [bootLayout_clusterCount]; omega
  have hentry : (⟨3, 2, lit "BOOTX64 EFI", 4, files.efi⟩ : Filed).entry v =
      ⟨lit "BOOTX64 EFI", 0x20, 4, files.efi.length⟩ := by
    rw [bootx64_name]
    exact @Holds.entry_eq _ _ _ _ _ _ h bootLayout_sound 1 2 _ _ _ _ rfl three_slots rfl (setDirEntryName_length _ _)
      (by decide) hlength
  refine stored_of_holds bootLayout_sound h (fatTable_plain bootLayout_sound hroom hfits) (by omega) hfits
    (by decide) (by decide) ?_ rfl ?_
  · simpa using hlength
  · intro f hf
    rw [List.mem_singleton.mp hf]
    exact hentry

end Stored

-- Whatever the tool is given, it ends. If it writes an image, the files are on its boot volume
-- as they were read, in chains that share nothing with each other or with the directories, and
-- no part of the volume was written over another.
theorem files_stored (opts : Options) (host : Host)
    (hlengths : ∀ files, readInputs opts host = .ok files → ∀ file ∈ files.toList, file.length < 2 ^ 32 - 4096) :
    ∃ r, build opts host = .returned r ∧ ∀ out, r = .ok out →
      ∃ files, readInputs opts host = .ok files ∧
        Stored (out.image.suffix out.base) (directoryNumbers opts.includeKernelFiles)
          (filed files opts.includeKernelFiles) ∧
        out.volume.Pairwise Region.Apart := by
  cases hread : readInputs opts host with
  | error message =>
    refine ⟨.error message, ?_, fun out h => by cases h⟩
    rw [build, hread]
  | ok files =>
    have hlengths := hlengths files hread
    obtain ⟨r, hr, hout⟩ := build_cases hread hlengths
    refine ⟨r, hr, fun out h => ⟨files, rfl, ?_⟩⟩
    have hout := hout out h
    by_cases hkernel : opts.includeKernelFiles
    · rw [if_pos hkernel] at hout
      obtain ⟨hfits, -, hcarries⟩ := hout
      have hascending := @kernelVolume_ascending _ bootLayout_sound out.base _ _
        (setDirEntryName_length (lit "ROOTFS") (lit "SEED")) hfits
      have hholds := kernelVolume_holds bootLayout_sound (setDirEntryName_length _ _) hfits
        (hcarries.readback hascending)
      rw [hkernel, hcarries.volume_eq]
      exact ⟨kernel_stored hfits (onVolume_lengths hlengths) hholds, hascending.pairwise⟩
    · rw [if_neg hkernel] at hout
      obtain ⟨hfits, -, hcarries⟩ := hout
      have hroom : 4 ≤ bootLayout.clusterCount := by rw [bootLayout_clusterCount]; omega
      have hascending := @plainVolume_ascending _ bootLayout_sound out.base _ hroom hfits
      have hholds := plainVolume_holds bootLayout_sound hroom hfits (hcarries.readback hascending)
      rw [Bool.not_eq_true] at hkernel
      rw [hkernel, hcarries.volume_eq]
      exact ⟨plain_stored hfits (hlengths _ List.mem_cons_self) hholds, hascending.pairwise⟩

def tinyOptions : Options := ⟨lit "boot.efi", [], [], [], [], lit "efiboot.img", 64⟩

def tinyHost : Host := ⟨fun _ => some [0x4D, 0x5A], fun _ => true, fun _ => true, none, true, true, true, true⟩

def Accepts (opts : Options) (host : Host) : Bool :=
  match build opts host with
  | .returned (.ok _) => true
  | _ => false

theorem two_bytes_stored : Accepts tinyOptions tinyHost ∧
    ∃ r, build tinyOptions tinyHost = .returned r ∧ ∀ out, r = .ok out →
      ∃ files, readInputs tinyOptions tinyHost = .ok files ∧
        Stored (out.image.suffix out.base) (directoryNumbers tinyOptions.includeKernelFiles)
          (filed files tinyOptions.includeKernelFiles) ∧
        out.volume.Pairwise Region.Apart := by
  refine ⟨by decide +kernel, files_stored tinyOptions tinyHost fun files h file hfile => ?_⟩
  cases h
  revert file
  decide

end Wirth.Toolchain.EfiImage

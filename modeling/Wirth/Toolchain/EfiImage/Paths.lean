import Wirth.Toolchain.EfiImage.Build

namespace Wirth.Toolchain.EfiImage

open Wirth.Lib

def slotOf (e : Fat16.Entry) : List UInt8 := dirEntry e.name e.attributes e.firstCluster e.size

def Usable (name : List UInt8) : Prop :=
  name.length = 11 ∧ name.getD 0 0 ≠ 0 ∧ name.getD 0 0 ≠ 0xE5

instance (name : List UInt8) : Decidable (Usable name) :=
  inferInstanceAs (Decidable (name.length = 11 ∧ name.getD 0 0 ≠ 0 ∧ name.getD 0 0 ≠ 0xE5))

def Recordable (e : Fat16.Entry) : Prop := Usable e.name ∧ e.firstCluster < 2 ^ 16 ∧ e.size < 2 ^ 32

section Search

variable {es : List Fat16.Entry} {rest : List (List UInt8)} {size : Nat}

theorem listing_directory {n : Nat} {zeros : List UInt8} (hes : ∀ e ∈ es, Recordable e)
    (hrest : (rest.flatten ++ zeros).getD 0 0 = 0) (hn : es.length ≤ n) :
    Fat16.listing n ((es.map slotOf ++ rest).flatten ++ zeros) = es := by
  induction es generalizing n with
  | nil => exact Fat16.listing_end hrest
  | cons e es ih =>
    obtain ⟨n, rfl⟩ : ∃ k, n = k + 1 := ⟨n - 1, by rw [List.length_cons] at hn; omega⟩
    obtain ⟨⟨hname, hused, hkept⟩, hcluster, hsize⟩ := hes e List.mem_cons_self
    have hfirst : (slotOf e).getD 0 0 = e.name.getD 0 0 := by
      exact List.getD_append _ _ _ _ (by omega)
    have hlength : (slotOf e).length = 32 := dirEntry_length hname
    rw [List.map_cons, List.cons_append, List.flatten_cons, List.append_assoc,
      Fat16.listing_cons hlength (by rwa [hfirst]) (by rwa [hfirst]),
      ih (fun e' he' => hes e' (List.mem_cons_of_mem _ he')) (by rw [List.length_cons] at hn; omega), slotOf,
      ofSlot_dirEntry hname hcluster hsize]

theorem find_directory (hes : ∀ e ∈ es, Recordable e)
    (hrest : rest = [] ∨ ∃ more, rest = emptySlot :: more) (hslots : ∀ slot ∈ rest, slot.length = 32)
    (hsize : 32 * (es.length + rest.length) ≤ size) (isDirectory : Bool) (name : List UInt8) :
    Fat16.find (directory size (es.map slotOf ++ rest)) isDirectory name =
      es.find? fun e => Fat16.named isDirectory name e.attributes e.name := by
  have hlength : (directory size (es.map slotOf ++ rest)).length = size := by
    refine directory_length (fun slot hslot => ?_) (by grind)
    rcases List.mem_append.mp hslot with hslot | hslot
    · obtain ⟨e, he, rfl⟩ := List.mem_map.mp hslot
      exact dirEntry_length (hes e he).1.1
    · exact hslots slot hslot
  rw [Fat16.find, hlength, directory, listing_directory hes ?_ (by omega)]
  rcases hrest with rfl | ⟨more, rfl⟩
  · exact replicate_zero_getD _ _
  · rfl

end Search

-- The entries of the directories.

def rootEntries : List Fat16.Entry :=
  [⟨lit "wirth ESP" ++ [0, 0], 0x08, 0, 0⟩, ⟨lit "EFI        ", 0x10, 2, 0⟩, ⟨lit "BOOT       ", 0x10, 4, 0⟩]

def dots (self parent : Nat) : List Fat16.Entry :=
  [⟨lit ".          ", 0x10, self, 0⟩, ⟨lit "..         ", 0x10, parent, 0⟩]

theorem dots_recordable {self parent : Nat} (hself : self < 2 ^ 16) (hparent : parent < 2 ^ 16) :
    ∀ e ∈ dots self parent, Recordable e := by
  have hone : Usable (lit ".          ") := by decide +kernel
  have htwo : Usable (lit "..         ") := by decide +kernel
  simp only [dots, List.forall_mem_cons]
  exact ⟨⟨hone, hself, Nat.two_pow_pos 32⟩, ⟨htwo, hparent, Nat.two_pow_pos 32⟩, fun e he => absurd he List.not_mem_nil⟩

theorem dots_slots (self parent : Nat) :
    (dots self parent).map slotOf = [writeDotEntry false self, writeDotEntry true parent] := by
  have hone : lit ".          " = chr '.' :: 32 :: List.replicate 9 32 := by decide +kernel
  have htwo : lit "..         " = chr '.' :: chr '.' :: List.replicate 9 32 := by decide +kernel
  simp only [dots, List.map_cons, List.map_nil, slotOf, hone, htwo, writeDotEntry, if_true, Bool.false_eq_true,
    if_false]

theorem find_after_dots {self parent : Nat} (hself : self < 2 ^ 16) (hparent : parent < 2 ^ 16)
    {es : List Fat16.Entry} {rest : List (List UInt8)} (hes : ∀ e ∈ es, Recordable e)
    (hrest : rest = [] ∨ ∃ more, rest = emptySlot :: more) (hslots : ∀ slot ∈ rest, slot.length = 32)
    (hsize : es.length + rest.length ≤ 126) {isDirectory : Bool} {name : List UInt8}
    (hname : name ≠ lit ".          " ∧ name ≠ lit "..         ") :
    Fat16.find (directory clusterSize
        (writeDotEntry false self :: writeDotEntry true parent :: (es.map slotOf ++ rest))) isDirectory name =
      es.find? fun e => Fat16.named isDirectory name e.attributes e.name := by
  have hfind := @find_directory (dots self parent ++ es) rest clusterSize (fun e he =>
    (List.mem_append.mp he).elim (dots_recordable hself hparent e) (hes e)) hrest hslots (by
      have hsize' : clusterSize = 4096 := rfl
      grind [dots]) isDirectory name
  have hskip : ∀ dot, dot = lit ".          " ∨ dot = lit "..         " →
      Fat16.named isDirectory name 0x10 dot = false := by
    rintro dot hdot
    have hne : dot ≠ name := by
      rintro rfl
      rcases hdot with h | h
      · exact hname.1 h
      · exact hname.2 h
    simp [Fat16.named, hne]
  simp only [List.map_append, dots_slots, List.cons_append, List.nil_append] at hfind
  simp [dots, hfind, hskip]

section Kernel

variable {v : ByteImage} {layout : Layout} {files : PerFile (List UInt8)} {base : Nat}

theorem find_root {name : List UInt8} :
    Fat16.find (writeRootDirectory layout base true).bytes true name =
      rootEntries.find? fun e => Fat16.named true name e.attributes e.name := by
  have hslots : rootEntries.map slotOf = [writeVolumeLabelEntry (lit "wirth ESP"),
      writeDirEntry (lit "EFI") [] 0x10 2 0, writeDirEntry (lit "BOOT") [] 0x10 4 0] := by decide +kernel
  have hrecordable : ∀ e ∈ rootEntries, Usable e.name ∧ e.firstCluster < 2 ^ 16 ∧ e.size < 2 ^ 32 := by
    decide +kernel
  have hfind := @find_directory rootEntries [] (rootDirSectors * kBytesPerSector) hrecordable (Or.inl rfl)
    (fun slot h => absurd h List.not_mem_nil) (by decide) true name
  rw [hslots, List.append_nil] at hfind
  exact hfind

theorem find_single {self parent first size : Nat} {name8 ext3 : Str} {name : List UInt8} {attributes : UInt8}
    {isDirectory : Bool} (hself : self < 2 ^ 16) (hparent : parent < 2 ^ 16) (hfirst : first < 2 ^ 16)
    (hsize : size < 2 ^ 32) (hname : setDirEntryName name8 ext3 = name)
    (husable : Usable name ∧ name ≠ lit ".          " ∧ name ≠ lit "..         ")
    (hnamed : Fat16.named isDirectory name attributes name = true) :
    Fat16.find (directory clusterSize [writeDotEntry false self, writeDotEntry true parent,
      writeDirEntry name8 ext3 attributes first size]) isDirectory name = some ⟨name, attributes, first, size⟩ := by
  have hrecordable : ∀ e ∈ [(⟨name, attributes, first, size⟩ : Fat16.Entry)], Recordable e := by
    intro e he
    rw [List.mem_singleton.mp he]
    exact ⟨husable.1, hfirst, hsize⟩
  have hfind := @find_after_dots self parent hself hparent _ [] hrecordable (Or.inl rfl) (fun slot h => absurd h List.not_mem_nil)
    (show 1 + 0 ≤ 126 by decide) isDirectory name husable.2
  rw [Fat16.find?_here hnamed] at hfind
  rw [← hfind, writeDirEntry, hname]
  rfl

-- The entries of the directory with the kernels that a reader sees.
def bootEntries (sizes starts : PerFile Nat) : List Fat16.Entry :=
  [⟨lit "KERNEL  ELF", 0x20, uint16 starts.kernel32, sizes.kernel32⟩,
    ⟨lit "KERNEL64ELF", 0x20, uint16 starts.kernel64, sizes.kernel64⟩] ++
  if 0 < sizes.rootfs then
    [⟨rootfsSeedName, 0x20, uint16 starts.rootfs, sizes.rootfs⟩, ⟨lit "GRUB       ", 0x10, 5, 0⟩]
  else []

theorem find_rootBoot {sizes starts : PerFile Nat} (h32 : sizes.kernel32 < 2 ^ 32) (h64 : sizes.kernel64 < 2 ^ 32)
    (hseed : sizes.rootfs < 2 ^ 32) {isDirectory : Bool} {name : List UInt8}
    (hname : name ≠ lit ".          " ∧ name ≠ lit "..         ") :
    Fat16.find (directory clusterSize (rootBootSlots rootfsSeedName sizes starts)) isDirectory name =
      (bootEntries sizes starts).find? fun e => Fat16.named isDirectory name e.attributes e.name := by
  have hcluster : ∀ start, uint16 start < 2 ^ 16 := fun start => Nat.mod_lt _ (by decide)
  have hkernel : Usable (lit "KERNEL  ELF") := by decide +kernel
  have hkernel64 : Usable (lit "KERNEL64ELF") := by decide +kernel
  have hgrub : Usable (lit "GRUB       ") := by decide +kernel
  have hseedName : Usable rootfsSeedName := by decide +kernel
  have hgrubSlot : writeDirEntry (lit "GRUB") [] 0x10 5 0 = slotOf ⟨lit "GRUB       ", 0x10, 5, 0⟩ := by
    decide +kernel
  rw [rootBootSlots, writeDirEntry, writeDirEntry, ← kernel_name, ← kernel64_name]
  by_cases hempty : 0 < sizes.rootfs
  · have hrecordable : ∀ e ∈ bootEntries sizes starts, Recordable e := by
      rw [bootEntries, if_pos hempty]
      simp only [List.cons_append, List.nil_append, List.forall_mem_cons]
      exact ⟨⟨hkernel, hcluster _, h32⟩, ⟨hkernel64, hcluster _, h64⟩, ⟨hseedName, hcluster _, hseed⟩,
        ⟨hgrub, by decide, by decide⟩, fun e he => absurd he List.not_mem_nil⟩
    have hfind := @find_after_dots 4 0 (by decide) (by decide) _ [] hrecordable (Or.inl rfl)
      (fun slot h => absurd h List.not_mem_nil) (by simp [bootEntries, hempty]) isDirectory name hname
    rw [← hfind, bootEntries, if_pos hempty, if_pos hempty, hgrubSlot]
    rfl
  · have hrecordable : ∀ e ∈ bootEntries sizes starts, Recordable e := by
      rw [bootEntries, if_neg hempty]
      simp only [List.append_nil, List.forall_mem_cons]
      exact ⟨⟨hkernel, hcluster _, h32⟩, ⟨hkernel64, hcluster _, h64⟩, fun e he => absurd he List.not_mem_nil⟩
    have hfind := @find_after_dots 4 0 (by decide) (by decide) _
      [emptySlot, writeDirEntry (lit "GRUB") [] 0x10 5 0] hrecordable (Or.inr ⟨_, rfl⟩)
      (by simp [emptySlot, writeDirEntry_length])
      (by simp [bootEntries, hempty]) isDirectory name hname
    rw [← hfind, bootEntries, if_neg hempty, if_neg hempty]
    rfl

theorem find_kernelBoot (hlengths : ∀ file ∈ files.toList, file.length < 2 ^ 32 - 4096) {isDirectory : Bool} {name : List UInt8}
    (hname : name ≠ lit ".          " ∧ name ≠ lit "..         ") :
    Fat16.find (directory clusterSize (rootBootSlots rootfsSeedName (files.map fileSize) (kernelStarts files)))
        isDirectory name =
      (bootEntries (files.map List.length) (kernelStarts files)).find? fun e =>
        Fat16.named isDirectory name e.attributes e.name := by
  have hsizes : files.map fileSize = files.map List.length := by
    simp only [PerFile.toList, List.forall_mem_cons] at hlengths
    grind [PerFile.map, fileSize_eq]
  have hbound : ∀ file ∈ files.toList, file.length < 2 ^ 32 := fun file hfile => by
    have := hlengths file hfile
    omega
  rw [hsizes]
  exact find_rootBoot (hbound files.kernel32 (by simp [PerFile.toList])) (hbound files.kernel64 (by simp [PerFile.toList]))
    (hbound files.rootfs (by simp [PerFile.toList])) hname

section Lookup

variable (hsound : layout.Sound) (hfits : 6 + totalClusters files.toList ≤ layout.clusterCount + 2)
  (hlengths : ∀ file ∈ files.toList, file.length < 2 ^ 32 - 4096)
  (h : Holds v layout (fatTable layout (files.map numClusters) true) (writeRootDirectory layout base true).bytes
    (directoryClusters rootfsSeedName (files.map fileSize) (kernelStarts files) true) (placed 6 files.toList))
include hsound hfits h

theorem chain_kernelDirectory {d : Nat} (hd : d ∈ [2, 3, 4, 5]) : Fat16.chain v 0 d = some [d] := by
  have htable := fatTable_kernel hsound hfits
  have hbounds : ∀ d ∈ [2, 3, 4, 5], 2 ≤ d ∧ d < 6 ∧ d ∈ [4, 5, 3, 2, 1] := by decide
  obtain ⟨hlow, hhigh, hmarked⟩ := hbounds d hd
  exact h.chain_directory hsound htable hmarked hlow (by omega) (by decide)

theorem walk_boot {names : List (List UInt8)} {file : List UInt8} :
    Fat16.lookup v (lit "BOOT       " :: names) file =
      Fat16.walk v (directory clusterSize (rootBootSlots rootfsSeedName (files.map fileSize) (kernelStarts files)))
        names file := by
  rw [Fat16.lookup, h.rootDirectory_eq hsound]
  have hfind : Fat16.find (writeRootDirectory layout base true).bytes true (lit "BOOT       ") =
      some ⟨lit "BOOT       ", 0x10, 4, 0⟩ := find_root.trans (by decide +kernel)
  exact Fat16.walk_cons hfind (chain_kernelDirectory hsound hfits h (by decide))
    (@Holds.cluster_directory _ _ _ _ _ _ hsound h 2 _ rfl)

include hlengths

theorem lookup_bootx64 : Fat16.lookup v [lit "EFI        ", lit "BOOT       "] (lit "BOOTX64 EFI") =
    some ⟨lit "BOOTX64 EFI", 0x20, (kernelStarts files).efi, files.efi.length⟩ := by
  have hroot : Fat16.find (writeRootDirectory layout base true).bytes true (lit "EFI        ") =
      some ⟨lit "EFI        ", 0x10, 2, 0⟩ := find_root.trans (by decide +kernel)
  have hefi : Fat16.find _ true (lit "BOOT       ") = some ⟨lit "BOOT       ", 0x10, 3, 0⟩ :=
    @find_single 2 0 3 0 (lit "BOOT") [] _ 0x10 true (by decide) (by decide) (by decide) (by decide)
      (by decide +kernel) (by decide +kernel) (by decide +kernel)
  have hlength := hlengths files.efi List.mem_cons_self
  rw [Fat16.lookup, h.rootDirectory_eq hsound,
    Fat16.walk_cons hroot (chain_kernelDirectory hsound hfits h (by decide))
      (@Holds.cluster_directory _ _ _ _ _ _ hsound h 0 _ rfl),
    Fat16.walk_cons hefi (chain_kernelDirectory hsound hfits h (by decide))
      (@Holds.cluster_directory _ _ _ _ _ _ hsound h 1 _ rfl), Fat16.walk]
  have hsize : (files.map fileSize).efi = files.efi.length := fileSize_eq hlength
  rw [hsize]
  exact find_single (by decide) (by decide) (Nat.mod_lt _ (by decide)) (by omega) bootx64_name.symm
    (by decide +kernel) (by decide +kernel)

theorem lookup_kernels :
    Fat16.lookup v [lit "BOOT       "] (lit "KERNEL  ELF") =
        some ⟨lit "KERNEL  ELF", 0x20, (kernelStarts files).kernel32, files.kernel32.length⟩ ∧
      Fat16.lookup v [lit "BOOT       "] (lit "KERNEL64ELF") =
        some ⟨lit "KERNEL64ELF", 0x20, (kernelStarts files).kernel64, files.kernel64.length⟩ := by
  obtain ⟨-, hstart32, hstart64, -⟩ := kernelStarts_lt hsound hfits
  have h32 : uint16 (kernelStarts files).kernel32 = (kernelStarts files).kernel32 := Nat.mod_eq_of_lt hstart32
  have h64 : uint16 (kernelStarts files).kernel64 = (kernelStarts files).kernel64 := Nat.mod_eq_of_lt hstart64
  rw [walk_boot hsound hfits h, walk_boot hsound hfits h, Fat16.walk, Fat16.walk,
    find_kernelBoot hlengths (by decide +kernel),
    find_kernelBoot hlengths (by decide +kernel), bootEntries, h32, h64, List.cons_append,
    List.cons_append]
  constructor
  · exact Fat16.find?_here (by decide +kernel)
  · rw [Fat16.find?_skip (by decide +kernel)]
    exact Fat16.find?_here (by decide +kernel)

-- The slot of the seed comes before that of the directory. Left empty, it ends the search.
theorem lookup_grubCfg : Fat16.lookup v [lit "BOOT       ", lit "GRUB       "] (lit "GRUB    CFG") =
    if files.rootfs = [] then none
    else some ⟨lit "GRUB    CFG", 0x20, (kernelStarts files).grubCfg, files.grubCfg.length⟩ := by
  have hfind : Fat16.find (directory clusterSize
      (rootBootSlots rootfsSeedName (files.map fileSize) (kernelStarts files))) true (lit "GRUB       ") =
      if files.rootfs = [] then none else some ⟨lit "GRUB       ", 0x10, 5, 0⟩ := by
    rw [find_kernelBoot hlengths (by decide +kernel), bootEntries, List.cons_append, List.cons_append,
      Fat16.find?_skip (by decide +kernel), Fat16.find?_skip (by decide +kernel), List.nil_append]
    by_cases hempty : files.rootfs = []
    · simp [PerFile.map, hempty]
    · have hpos : 0 < (files.map List.length).rootfs := List.length_pos_iff.mpr hempty
      rw [if_pos hpos, if_neg hempty, Fat16.find?_skip (by decide +kernel)]
      exact Fat16.find?_here (by decide +kernel)
  rw [walk_boot hsound hfits h]
  by_cases hempty : files.rootfs = []
  · simp [Fat16.walk, hempty, hfind]
  · rw [if_neg hempty] at hfind ⊢
    obtain ⟨-, -, -, -, hstart⟩ := kernelStarts_lt hsound hfits
    have hlength := hlengths files.grubCfg (by simp [PerFile.toList])
    rw [Fat16.walk_cons hfind (chain_kernelDirectory hsound hfits h (by decide))
        (@Holds.cluster_directory _ _ _ _ _ _ hsound h 3 _ rfl), Fat16.walk]
    have hsize : (files.map fileSize).grubCfg = files.grubCfg.length := fileSize_eq hlength
    have hfirst : uint16 (kernelStarts files).grubCfg = (kernelStarts files).grubCfg := Nat.mod_eq_of_lt hstart
    rw [hsize, hfirst]
    exact find_single (by decide) (by decide) hstart (by omega) grubCfg_name.symm (by decide +kernel)
      (by decide +kernel)

end Lookup

end Kernel

-- A reader that starts at the root finds the file, with its first cluster and its size.
def Reachable (v : ByteImage) (directories : List Str) (name : Str) (first : Nat) (file : List UInt8) : Prop :=
  Fat16.lookup v directories name = some ⟨name, 0x20, first, file.length⟩

structure KernelsFound (v : ByteImage) (files : PerFile (List UInt8)) : Prop where
  bootx64 : Reachable v [lit "EFI        ", lit "BOOT       "] (lit "BOOTX64 EFI") (kernelStarts files).efi files.efi
  kernel : Reachable v [lit "BOOT       "] (lit "KERNEL  ELF") (kernelStarts files).kernel32 files.kernel32
  kernel64 : Reachable v [lit "BOOT       "] (lit "KERNEL64ELF") (kernelStarts files).kernel64 files.kernel64

def GrubFound (v : ByteImage) (files : PerFile (List UInt8)) : Prop :=
  Reachable v [lit "BOOT       ", lit "GRUB       "] (lit "GRUB    CFG") (kernelStarts files).grubCfg files.grubCfg

def CarriesFiles (img : ByteImage) (base : Nat) (files : PerFile (List UInt8)) : Prop :=
  ∀ r ∈ kernelVolume rootfsSeedName bootLayout base files, img.bytes r.start r.bytes.length = r.bytes

section Volumes

variable {img : ByteImage} {base : Nat} {files : PerFile (List UInt8)}
  (hfits : 6 + totalClusters files.toList ≤ bootLayout.clusterCount + 2)
  (hlengths : ∀ file ∈ files.toList, file.length < 2 ^ 32 - 4096) (hcarries : CarriesFiles img base files)
include hfits hlengths hcarries

theorem kernels_found : KernelsFound (img.suffix base) files := by
  have hholds := kernelVolume_holds bootLayout_sound (setDirEntryName_length _ _) hfits hcarries
  obtain ⟨hkernel, hkernel64⟩ := lookup_kernels bootLayout_sound hfits hlengths hholds
  exact ⟨lookup_bootx64 bootLayout_sound hfits hlengths hholds, hkernel, hkernel64⟩

theorem lookup_grub : Fat16.lookup (img.suffix base) [lit "BOOT       ", lit "GRUB       "] (lit "GRUB    CFG") =
    if files.rootfs = [] then none
    else some ⟨lit "GRUB    CFG", 0x20, (kernelStarts files).grubCfg, files.grubCfg.length⟩ :=
  lookup_grubCfg bootLayout_sound hfits hlengths
    (kernelVolume_holds bootLayout_sound (setDirEntryName_length _ _) hfits hcarries)

theorem grub_found_iff : GrubFound (img.suffix base) files ↔ files.rootfs ≠ [] := by
  rw [GrubFound, Reachable, lookup_grub hfits hlengths hcarries]
  simp

end Volumes

-- On every disk with kernels that the tool writes, a reader finds the boot program and the
-- kernels, and does not find the configuration. It would find it exactly on a volume that also
-- has a seed.
theorem paths_found_iff (opts : Options) (host : Host) (hkernel : opts.includeKernelFiles)
    (hlengths : ∀ files, readInputs opts host = .ok files → ∀ file ∈ files.toList, file.length < 2 ^ 32 - 4096) :
    ∃ r, build opts host = .returned r ∧ ∀ out, r = .ok out → ∃ files, readInputs opts host = .ok files ∧
      KernelsFound (out.image.suffix out.base) (onVolume files) ∧
      Fat16.lookup (out.image.suffix out.base) [lit "BOOT       ", lit "GRUB       "] (lit "GRUB    CFG") = none ∧
      ∀ img seed, seed.length < 2 ^ 32 - 4096 →
        6 + totalClusters ({ files with rootfs := seed } : PerFile _).toList ≤ bootLayout.clusterCount + 2 →
        CarriesFiles img out.base { files with rootfs := seed } →
        KernelsFound (img.suffix out.base) { files with rootfs := seed } ∧
          (GrubFound (img.suffix out.base) { files with rootfs := seed } ↔ seed ≠ []) := by
  cases hread : readInputs opts host with
  | error message =>
    refine ⟨.error message, ?_, fun out h => by cases h⟩
    rw [build, hread]
  | ok files =>
    have hlengths := hlengths files hread
    obtain ⟨r, hr, hout⟩ := build_cases hread hlengths
    refine ⟨r, hr, fun out h => ⟨files, rfl, ?_⟩⟩
    have hout := hout out h
    rw [if_pos hkernel] at hout
    obtain ⟨hfits, -, hvolume⟩ := hout
    have hcarries : CarriesFiles out.image out.base (onVolume files) := hvolume.readback
      (kernelVolume_ascending bootLayout_sound (setDirEntryName_length _ _) hfits)
    refine ⟨kernels_found hfits (onVolume_lengths hlengths) hcarries, ?_, fun img seed hseed hfits' himg => ?_⟩
    · rw [lookup_grub hfits (onVolume_lengths hlengths) hcarries]
      exact if_pos rfl
    · have hlengths' : ∀ file ∈ ({ files with rootfs := seed } : PerFile _).toList, file.length < 2 ^ 32 - 4096 := by
        simp only [PerFile.toList, List.forall_mem_cons] at hlengths ⊢
        exact ⟨hlengths.1, hlengths.2.1, hlengths.2.2.1, hseed, hlengths.2.2.2.2⟩
      exact ⟨kernels_found hfits' hlengths' himg, grub_found_iff hfits' hlengths' himg⟩

def kernelOptions : Options :=
  ⟨lit "boot.efi", lit "kernel.elf", lit "kernel64.elf", lit "rootfs.seed", lit "grub.cfg", lit "disk.img", 34⟩

-- Two bytes in every file, and room for one megabyte in the second partition.
def kernelHost : Host := { tinyHost with ext4Image := some (List.replicate (2048 * 512) 0) }

def twoBytes : PerFile (List UInt8) := ⟨[0x4D, 0x5A], [0x4D, 0x5A], [0x4D, 0x5A], [0x4D, 0x5A], [0x4D, 0x5A]⟩

theorem twoBytes_read : readInputs kernelOptions kernelHost = .ok twoBytes := by rfl

theorem twoBytes_lengths : ∀ files, readInputs kernelOptions kernelHost = .ok files →
    ∀ file ∈ files.toList, file.length < 2 ^ 32 - 4096 := by
  intro files h
  cases h
  decide

theorem kernelHost_accepts : ∃ out, build kernelOptions kernelHost = .returned (.ok out) := by
  have hsmall : ¬bootLayout.clusterCount < requiredDataClusters twoBytes kernelOptions.includeKernelFiles := by
    decide +kernel
  have hbig : kPartitionAlignmentSectors + bootLayout.totalSectors <
      kernelOptions.sizeMiB * 1024 * 1024 / kBytesPerSector := by decide +kernel
  have hcount : ¬kernelOptions.sizeMiB * 1024 * 1024 / kBytesPerSector -
      (kPartitionAlignmentSectors + bootLayout.totalSectors) = 0 := by decide +kernel
  have hmib : ¬uint32 ((kernelOptions.sizeMiB * 1024 * 1024 / kBytesPerSector -
      (kPartitionAlignmentSectors + bootLayout.totalSectors)) * kBytesPerSector / (1024 * 1024)) = 0 := by
    decide +kernel
  have hext4 : ¬(List.replicate (2048 * 512) (0 : UInt8)).length ≠
      (kernelOptions.sizeMiB * 1024 * 1024 / kBytesPerSector -
        (kPartitionAlignmentSectors + bootLayout.totalSectors)) * kBytesPerSector := by
    rw [List.length_replicate]
    decide +kernel
  have hyes : ¬(!true) = true := by decide
  have hstage : ¬(!kernelHost.stageSeed twoBytes.rootfs) = true := hyes
  have hformat : ∀ n, ¬(!kernelHost.buildExt4Image n) = true := fun _ => hyes
  have hcreate : ¬(!kernelHost.create) = true := hyes
  have hreopen : ¬(!kernelHost.reopen) = true := hyes
  obtain ⟨out, -, hwritten⟩ := @writeDiskImage_eq kernelHost twoBytes _ _ _ (List.replicate (2048 * 512) 0)
    (by decide) (by decide +kernel)
  refine ⟨out, Eq.trans ?_ hwritten⟩
  rw [build, twoBytes_read]
  change (if bootLayout.clusterCount < _ then _ else _) = _
  rw [if_neg hsmall, if_pos (by decide +kernel)]
  change buildDiskImage bootLayout twoBytes kernelOptions kernelHost = _
  rw [buildDiskImage, if_pos hbig, if_neg hcount, if_neg hmib, if_neg hstage, if_neg (hformat _)]
  change (if (List.replicate (2048 * 512) (0 : UInt8)).length ≠ _ then _ else _) = _
  rw [if_neg hext4, if_neg hcreate, if_neg hreopen]

-- The configuration has two bytes, and nobody finds them.
theorem grub_not_found : ∃ out, build kernelOptions kernelHost = .returned (.ok out) ∧
    readInputs kernelOptions kernelHost = .ok twoBytes ∧ twoBytes.grubCfg = [0x4D, 0x5A] ∧
    Fat16.lookup (out.image.suffix out.base) [lit "BOOT       ", lit "GRUB       "] (lit "GRUB    CFG") = none := by
  obtain ⟨out, hbuild⟩ := kernelHost_accepts
  obtain ⟨r, hr, hout⟩ := build_cases twoBytes_read (twoBytes_lengths _ twoBytes_read)
  rw [hbuild] at hr
  cases hr
  have hout := hout out rfl
  rw [if_pos (by decide +kernel)] at hout
  obtain ⟨hfits, -, hvolume⟩ := hout
  have hcarries : CarriesFiles out.image out.base (onVolume twoBytes) := hvolume.readback
    (kernelVolume_ascending bootLayout_sound (setDirEntryName_length _ _) hfits)
  refine ⟨out, hbuild, twoBytes_read, rfl, ?_⟩
  rw [lookup_grub hfits (onVolume_lengths (twoBytes_lengths _ twoBytes_read)) hcarries]
  exact if_pos rfl

theorem two_byte_files_found : (∃ out, build kernelOptions kernelHost = .returned (.ok out)) ∧
    ∃ r, build kernelOptions kernelHost = .returned r ∧ ∀ out, r = .ok out →
      ∃ files, readInputs kernelOptions kernelHost = .ok files ∧
        KernelsFound (out.image.suffix out.base) (onVolume files) := by
  refine ⟨kernelHost_accepts, ?_⟩
  obtain ⟨r, hr, hout⟩ := paths_found_iff kernelOptions kernelHost (by decide +kernel) twoBytes_lengths
  refine ⟨r, hr, fun out h => ?_⟩
  obtain ⟨files, hread, hfound, -⟩ := hout out h
  exact ⟨files, hread, hfound⟩

end Wirth.Toolchain.EfiImage

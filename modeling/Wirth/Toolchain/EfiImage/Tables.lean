import Wirth.Toolchain.EfiImage.Volume

namespace Wirth.Toolchain.EfiImage

open Wirth.Lib

-- A layout whose parts follow each other, with an entry of the tables for each cluster.
structure Layout.Sound (layout : Layout) : Prop where
  firstFat : layout.firstFatSector = 1
  rootDir : layout.rootDirSector = 1 + 2 * layout.sectorsPerFat
  firstData : layout.firstDataSector = 33 + 2 * layout.sectorsPerFat
  table : layout.sectorsPerFat < 2 ^ 16
  entries : 2 * (layout.clusterCount + 2) ≤ 512 * layout.sectorsPerFat
  marks : layout.clusterCount + 2 ≤ 0xFFF8
  inside : layout.firstDataSector + 8 * layout.clusterCount ≤ layout.totalSectors
  total : layout.totalSectors < 2 ^ 32

theorem computeLayout_sound {sizeMiB : Nat} (hpos : 0 < sizeMiB) (hsize : sizeMiB ≤ 256) :
    (computeLayout sizeMiB).Sound := by
  have hall : ∀ n, n < 256 → let layout := computeLayout (n + 1)
      layout.firstFatSector = 1 ∧ layout.rootDirSector = 1 + 2 * layout.sectorsPerFat ∧
        layout.firstDataSector = 33 + 2 * layout.sectorsPerFat ∧ layout.sectorsPerFat < 2 ^ 16 ∧
        2 * (layout.clusterCount + 2) ≤ 512 * layout.sectorsPerFat ∧
        layout.clusterCount + 2 ≤ 0xFFF8 ∧
        layout.firstDataSector + 8 * layout.clusterCount ≤ layout.totalSectors ∧
        layout.totalSectors < 2 ^ 32 := by
    decide +kernel
  obtain ⟨n, rfl⟩ : ∃ n, sizeMiB = n + 1 := ⟨sizeMiB - 1, by omega⟩
  obtain ⟨h1, h2, h3, h4, h5, h6, h7, h8⟩ := hall n (by omega)
  exact ⟨h1, h2, h3, h4, h5, h6, h7, h8⟩

section Entries

variable {fat : List UInt8} {c d value : Nat}

theorem setEntry_length : (setEntry fat c value).length = fat.length := by
  rw [setEntry]
  split_ifs with h
  · exact splice_length h
  · rfl

theorem u16At_writeLe16 (h : value < 2 ^ 16) :
    (UInt8.ofNat value).toNat + 256 * (UInt8.ofNat (value / 2 ^ 8)).toNat = value := by
  grind [UInt8.toNat_ofNat']

theorem u16At_setEntry (hc : c * 2 + 2 ≤ fat.length) (hvalue : value < 2 ^ 16) :
    u16At (setEntry fat c value) (2 * d) = if d = c then value else u16At fat (2 * d) := by
  have hlength : (writeLe16 value).length = 2 := rfl
  rw [setEntry, if_pos hc, u16At, u16At, splice_getD hc, splice_getD hc, hlength]
  by_cases hd : d = c
  · rw [if_pos hd, if_pos (by omega), if_pos (by omega), show 2 * d - c * 2 = 0 by omega,
      show 2 * d + 1 - c * 2 = 1 by omega]
    exact u16At_writeLe16 hvalue
  grind

def link (start n d : Nat) : Nat := if d + 1 < start + n then d + 1 else kFatEoc

theorem writeChain_length {start n : Nat} : (writeChain fat start n).length = fat.length := by
  rw [writeChain]
  generalize List.range n = is
  induction is generalizing fat with
  | nil => rfl
  | cons i is ih => rw [List.foldl_cons, ih, setEntry_length]

theorem u16At_writeChain {start n : Nat} (hfits : 2 * (start + n) ≤ fat.length) (hmax : start + n ≤ 2 ^ 16) :
    u16At (writeChain fat start n) (2 * d) =
      if start ≤ d ∧ d < start + n then link start n d else u16At fat (2 * d) := by
  -- After some rounds the entries so far are linked.
  have hrounds : ∀ k, k ≤ n → ∀ table, table = (List.range k).foldl (fun fat i =>
      let cur := uint16 (uint32 (start + i))
      setEntry fat cur (if i + 1 < n then uint16 (cur + 1) else kFatEoc)) fat →
      table.length = fat.length ∧ u16At table (2 * d) =
        if start ≤ d ∧ d < start + k then link start n d else u16At fat (2 * d) := by
    intro k
    induction k with
    | zero =>
      simp
    | succ k ih =>
      rintro hk table rfl
      obtain ⟨hlength, hentry⟩ := ih (by omega) _ rfl
      rw [List.range_succ, List.foldl_append, List.foldl_cons, List.foldl_nil]
      generalize (List.range k).foldl _ fat = table at hlength hentry
      have hcur : uint16 (uint32 (start + k)) = start + k := by unfold uint16 uint32; omega
      have hvalue : (if k + 1 < n then uint16 (start + k + 1) else kFatEoc) = link start n (start + k) := by
        rw [link]
        by_cases hlast : k + 1 < n
        · rw [if_pos hlast, if_pos (by omega), uint16, Nat.mod_eq_of_lt (by omega)]
        · rw [if_neg hlast, if_neg (by omega)]
      have hlink : link start n (start + k) < 2 ^ 16 := by
        rw [link, kFatEoc]
        split_ifs <;> omega
      simp only [hcur, hvalue]
      refine ⟨by rw [setEntry_length, hlength], ?_⟩
      rw [u16At_setEntry (by omega) hlink, hentry]
      by_cases hd : d = start + k
      · rw [if_pos hd, if_pos (by omega), hd]
      grind
  exact (hrounds n (Nat.le_refl _) _ rfl).2

end Entries

def placed (start : Nat) : List (List UInt8) → List (Nat × List UInt8)
  | [] => []
  | file :: files => (start, file) :: placed (start + numClusters file) files

def totalClusters (files : List (List UInt8)) : Nat := (files.map numClusters).sum

section Placed

variable {files : List (List UInt8)} {file : List UInt8} {start c : Nat}

@[simp] theorem totalClusters_cons :
    totalClusters (file :: files) = numClusters file + totalClusters files := List.sum_cons

theorem placed_bounds (h : (c, file) ∈ placed start files) :
    start ≤ c ∧ c + numClusters file ≤ start + totalClusters files := by
  induction files generalizing start with
  | nil => cases h
  | cons first files ih =>
    rw [totalClusters_cons]
    rcases List.mem_cons.mp h with h | h
    · cases h
      omega
    · have := ih h
      omega

-- The chains of files that lie side by side, in a table that has room for them.
theorem u16At_writeChains {fat : List UInt8} (hfits : 2 * (start + totalClusters files) ≤ fat.length)
    (hmax : start + totalClusters files ≤ 2 ^ 16) {table : List UInt8}
    (htable : table = (placed start files).foldl
      (fun fat place => writeChain fat place.1 (numClusters place.2)) fat) :
    table.length = fat.length ∧
      (∀ d, d < start → u16At table (2 * d) = u16At fat (2 * d)) ∧
      ∀ c file, (c, file) ∈ placed start files → ∀ d, c ≤ d → d < c + numClusters file →
        u16At table (2 * d) = link c (numClusters file) d := by
  induction files generalizing start fat with
  | nil =>
    subst htable
    exact ⟨rfl, fun d _ => rfl, fun c file h => absurd h List.not_mem_nil⟩
  | cons first files ih =>
    rw [totalClusters_cons] at hfits hmax
    have hfirst : ∀ d, u16At (writeChain fat start (numClusters first)) (2 * d) = _ :=
      fun d => u16At_writeChain (by omega) (by omega)
    obtain ⟨hlength, hbelow, hchains⟩ := ih (by rw [writeChain_length]; omega) (by omega) htable
    refine ⟨by rw [hlength, writeChain_length], fun d hd => ?_, fun c file h d hlow hhigh => ?_⟩
    · grind
    · rcases List.mem_cons.mp h with h | h
      · grind
      · exact hchains c file h d hlow hhigh

end Placed

def PerFile.toList {α : Type} (x : PerFile α) : List α :=
  [x.efi, x.kernel32, x.kernel64, x.rootfs, x.grubCfg]

-- What the tables say: the directories have a cluster each, and the files their chains.
structure Chained (table : List UInt8) (size start : Nat) (directories : List Nat)
    (files : List (List UInt8)) : Prop where
  length : table.length = size
  directory : ∀ d ∈ directories, u16At table (2 * d) = kFatEoc
  file : ∀ c file, (c, file) ∈ placed start files → ∀ d, c ≤ d → d < c + numClusters file →
    u16At table (2 * d) = link c (numClusters file) d

section FatTable

variable {layout : Layout} {fat : List UInt8} {size start : Nat} {ds : List Nat}
  {files : List (List UInt8)}

def Marked (fat : List UInt8) (size : Nat) (ds : List Nat) : Prop :=
  fat.length = size ∧ ∀ d ∈ ds, u16At fat (2 * d) = kFatEoc

theorem Marked.setEntry {c : Nat} (h : Marked fat size ds) (hc : c * 2 + 2 ≤ size) :
    Marked (setEntry fat c kFatEoc) size (c :: ds) := by
  refine ⟨by rw [setEntry_length, h.1], fun d hd => ?_⟩
  rw [u16At_setEntry (by rw [h.1]; exact hc) (by decide)]
  by_cases hdc : d = c
  · rw [if_pos hdc]
  · rw [if_neg hdc]
    exact h.2 d ((List.mem_cons.mp hd).resolve_left hdc)

theorem Marked.chained (h : Marked fat size ds) (hds : ∀ d ∈ ds, d < start)
    (hfits : 2 * (start + totalClusters files) ≤ size) (hmax : start + totalClusters files ≤ 2 ^ 16) :
    Chained ((placed start files).foldl (fun fat place => writeChain fat place.1 (numClusters place.2)) fat)
      size start ds files := by
  obtain ⟨hlength, hbelow, hfiles⟩ := u16At_writeChains (by rw [h.1]; exact hfits) hmax (@rfl _ _)
  exact ⟨hlength.trans h.1, fun d hd => (hbelow d (hds d hd)).trans (h.2 d hd), hfiles⟩

theorem emptyTable_marked (hsound : layout.Sound) :
    Marked (EfiImage.setEntry (List.replicate (uint32 (layout.sectorsPerFat * kBytesPerSector)) 0) 0 0xFFF8)
      (512 * layout.sectorsPerFat) [] := by
  have := hsound.table
  refine ⟨?_, fun d hd => absurd hd List.not_mem_nil⟩
  rw [setEntry_length, List.length_replicate, kBytesPerSector, uint32_eq_self (by omega), Nat.mul_comm]

theorem fatTable_kernel (hsound : layout.Sound) {files : PerFile (List UInt8)}
    (hfits : 6 + totalClusters files.toList ≤ layout.clusterCount + 2) :
    Chained (fatTable layout (files.map numClusters) true) (512 * layout.sectorsPerFat) 6 [4, 5, 3, 2, 1]
      files.toList := by
  have hentries := hsound.entries
  have hmarks := hsound.marks
  have hchains : chains (files.map numClusters) true =
      (placed 6 files.toList).map fun place => (place.1, numClusters place.2) := by
    simp only [totalClusters, PerFile.toList, List.map_cons, List.map_nil, List.sum_cons, List.sum_nil] at hfits
    simp only [chains, PerFile.toList, PerFile.map, placed, List.map_cons, List.map_nil, if_true]
    grind [uint32_eq_self]
  have hmarked : Marked _ (512 * layout.sectorsPerFat) [4, 5, 3, 2, 1] :=
    (emptyTable_marked hsound).setEntry (by omega) |>.setEntry (by omega) |>.setEntry (by omega)
      |>.setEntry (by omega) |>.setEntry (by omega)
  have hbelow : ∀ d ∈ [4, 5, 3, 2, 1], d < 6 := by decide
  have hchained := @Marked.chained _ _ _ _ files.toList hmarked hbelow (by omega) (by omega)
  simp [fatTable, List.foldl_map, hchains, hchained]

theorem fatTable_plain (hsound : layout.Sound) {efi : List UInt8} (hroom : 4 ≤ layout.clusterCount)
    (hfits : 4 + numClusters efi ≤ layout.clusterCount + 2) :
    Chained (fatTable layout ⟨numClusters efi, 0, 0, 0, 0⟩ false) (512 * layout.sectorsPerFat) 4 [3, 2, 1]
      [efi] := by
  have hentries := hsound.entries
  have hmarks := hsound.marks
  -- The tool also marks the fifth cluster, which may belong to the file.
  have hmarked : Marked _ (512 * layout.sectorsPerFat) [5, 3, 2, 1] :=
    (emptyTable_marked hsound).setEntry (by omega) |>.setEntry (by omega) |>.setEntry (by omega)
      |>.setEntry (by omega)
  have hrest : Marked _ (512 * layout.sectorsPerFat) [3, 2, 1] :=
    ⟨hmarked.1, fun d hd => hmarked.2 d (List.mem_cons_of_mem _ hd)⟩
  have htotal : totalClusters [efi] = numClusters efi := Nat.add_zero _
  have hbelow : ∀ d ∈ [3, 2, 1], d < 4 := by decide
  have hchained := @Marked.chained _ _ _ _ [efi] hrest hbelow (by omega) (by omega)
  rw [fatTable, chains]
  simp only [if_neg Bool.false_ne_true]
  exact hchained

end FatTable

end Wirth.Toolchain.EfiImage

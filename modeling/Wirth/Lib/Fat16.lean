import Wirth.Lib.ByteImage
import Wirth.Lib.Little

namespace Wirth.Lib.Fat16

-- A FAT16 volume as the format describes it, read from the bytes of the volume.

structure Geometry where
  bytesPerSector : Nat
  sectorsPerCluster : Nat
  reservedSectors : Nat
  fatCount : Nat
  rootEntryCount : Nat
  sectorsPerFat : Nat
  totalSectors : Nat
  deriving DecidableEq

-- What a boot sector says. A volume with too many sectors for the short field has the long one.
def Geometry.ofBootSector (boot : List UInt8) : Geometry where
  bytesPerSector := u16At boot 11
  sectorsPerCluster := (boot.getD 13 0).toNat
  reservedSectors := u16At boot 14
  fatCount := (boot.getD 16 0).toNat
  rootEntryCount := u16At boot 17
  sectorsPerFat := u16At boot 22
  totalSectors := if u16At boot 19 = 0 then at32 boot 32 else u16At boot 19

namespace Geometry

variable (g : Geometry)

def fatStart (copy : Nat) : Nat := (g.reservedSectors + copy * g.sectorsPerFat) * g.bytesPerSector

def rootSector : Nat := g.reservedSectors + g.fatCount * g.sectorsPerFat

def dataSector : Nat :=
  g.rootSector + (g.rootEntryCount * 32 + (g.bytesPerSector - 1)) / g.bytesPerSector

def clusterCount : Nat := (g.totalSectors - g.dataSector) / g.sectorsPerCluster

def clusterStart (c : Nat) : Nat := (g.dataSector + (c - 2) * g.sectorsPerCluster) * g.bytesPerSector

end Geometry

section Reader

variable (v : ByteImage)

def geometry : Geometry := .ofBootSector (v.bytes 0 512)

def fat (copy : Nat) : List UInt8 :=
  v.bytes ((geometry v).fatStart copy) ((geometry v).sectorsPerFat * (geometry v).bytesPerSector)

def rootDirectory : List UInt8 :=
  v.bytes ((geometry v).rootSector * (geometry v).bytesPerSector) ((geometry v).rootEntryCount * 32)

def cluster (c : Nat) : List UInt8 :=
  v.bytes ((geometry v).clusterStart c) ((geometry v).sectorsPerCluster * (geometry v).bytesPerSector)

def follow (copy : Nat) : Nat → Nat → Option (List Nat)
  | 0, _ => none
  | fuel + 1, c =>
      if 2 ≤ c ∧ c < (geometry v).clusterCount + 2 then
        if 0xFFF8 ≤ u16At (fat v copy) (2 * c) then some [c]
        else (follow copy fuel (u16At (fat v copy) (2 * c))).map (c :: ·)
      else none

-- The clusters from one to the end mark. A chain without a loop has no more than there are.
def chain (copy c : Nat) : Option (List Nat) := follow v copy (geometry v).clusterCount c

def contents (cs : List Nat) : List UInt8 := cs.flatMap (cluster v)

end Reader

structure Entry where
  name : List UInt8
  attributes : UInt8
  firstCluster : Nat
  size : Nat
  deriving DecidableEq

def Entry.ofSlot (slot : List UInt8) : Entry :=
  ⟨slot.take 11, slot.getD 11 0, u16At slot 26, at32 slot 28⟩

-- The entries of a directory. It ends at the first slot that was never used, and deleted
-- entries are passed over.
def listing : Nat → List UInt8 → List Entry
  | 0, _ => []
  | n + 1, bytes =>
      if bytes.getD 0 0 = 0 then []
      else if bytes.getD 0 0 = 0xE5 then listing n (bytes.drop 32)
      else .ofSlot (bytes.take 32) :: listing n (bytes.drop 32)

-- Whether an entry is the directory or the file of a name. A volume label is neither.
def named (isDirectory : Bool) (name : List UInt8) (attributes : UInt8) (entryName : List UInt8) : Bool :=
  attributes &&& 0x08 == 0 && ((attributes &&& 0x10 != 0) == isDirectory) && entryName == name

def find (directory : List UInt8) (isDirectory : Bool) (name : List UInt8) : Option Entry :=
  (listing (directory.length / 32) directory).find? fun e => named isDirectory name e.attributes e.name

def walk (v : ByteImage) : List UInt8 → List (List UInt8) → List UInt8 → Option Entry
  | directory, [], file => find directory false file
  | directory, name :: names, file => do
      let e ← find directory true name
      let cs ← chain v 0 e.firstCluster
      walk v (contents v cs) names file

-- The entry of a file, found from the root along some directories.
def lookup (v : ByteImage) (directories : List (List UInt8)) (file : List UInt8) : Option Entry :=
  walk v (rootDirectory v) directories file

section Chains

variable {v : ByteImage} {copy start n : Nat}

theorem follow_range' {fuel : Nat} (hn : 0 < n) (hfuel : n ≤ fuel) (hstart : 2 ≤ start)
    (hinside : start + n ≤ (geometry v).clusterCount + 2) (hmark : start + n ≤ 0xFFF8)
    (hlinks : ∀ i, i < n → u16At (fat v copy) (2 * (start + i)) =
      if i + 1 < n then start + i + 1 else 0xFFFF) :
    follow v copy fuel start = some (List.range' start n) := by
  induction n generalizing start fuel with
  | zero => omega
  | succ n ih =>
    obtain ⟨fuel, rfl⟩ : ∃ k, fuel = k + 1 := ⟨fuel - 1, by omega⟩
    have hfirst := hlinks 0 (by omega)
    rw [Nat.add_zero] at hfirst
    rw [follow, if_pos (by omega)]
    by_cases hlast : n = 0
    · simp [hfirst, hlast]
    · rw [if_pos (by omega)] at hfirst
      rw [hfirst, if_neg (by omega)]
      have hrest : follow v copy fuel (start + 1) = some (List.range' (start + 1) n) := by
        refine ih (by omega) (by omega) (by omega) (by omega) (by omega) fun i hi => ?_
        have := hlinks (i + 1) (by omega)
        rw [show start + (i + 1) = start + 1 + i by omega] at this
        rw [this]
        split_ifs <;> omega
      rw [hrest, Option.map_some, List.range'_succ]

-- Clusters that are linked one after the other are found as a chain.
theorem chain_range' (hn : 0 < n) (hstart : 2 ≤ start)
    (hinside : start + n ≤ (geometry v).clusterCount + 2) (hmark : start + n ≤ 0xFFF8)
    (hlinks : ∀ i, i < n → u16At (fat v copy) (2 * (start + i)) =
      if i + 1 < n then start + i + 1 else 0xFFFF) :
    chain v copy start = some (List.range' start n) :=
  follow_range' hn (by omega) hstart hinside hmark hlinks

-- A file that was cut into clusters, the last of them filled up with zeros.
theorem contents_range' {size : Nat} {file : List UInt8} (hn : file.length ≤ size * n)
    (hclusters : ∀ i, i < n → cluster v (start + i) = (file.drop (size * i)).take size ++
      List.replicate (size - (file.drop (size * i)).length) 0) :
    (contents v (List.range' start n)).take file.length = file := by
  induction n generalizing start file with
  | zero => grind
  | succ n ih =>
    have hfirst := hclusters 0 (by omega)
    rw [Nat.add_zero, Nat.mul_zero, List.drop_zero] at hfirst
    rw [List.range'_succ, contents, List.flatMap_cons, hfirst]
    by_cases hshort : file.length ≤ size
    · grind
    · have hrest : (contents v (List.range' (start + 1) n)).take (file.drop size).length =
          file.drop size := by
        refine ih (by rw [List.length_drop, Nat.mul_succ] at *; omega) fun i hi => ?_
        have := hclusters (i + 1) (by omega)
        rw [show start + (i + 1) = start + 1 + i by omega, Nat.mul_succ, Nat.add_comm _ size,
          ← List.drop_drop] at this
        exact this
      have hlength : (file.take size).length = size := by rw [List.length_take]; omega
      rw [show size - file.length = 0 by omega, List.replicate_zero, List.append_nil,
        List.take_append, hlength, List.take_of_length_le (by omega),
        ← List.length_drop, ← contents, hrest, List.take_append_drop]

end Chains

section Directories

variable {slot rest : List UInt8} {n : Nat}

theorem listing_cons (hlength : slot.length = 32) (hused : slot.getD 0 0 ≠ 0)
    (hkept : slot.getD 0 0 ≠ 0xE5) :
    listing (n + 1) (slot ++ rest) = .ofSlot slot :: listing n rest := by
  have hfirst : (slot ++ rest).getD 0 0 = slot.getD 0 0 := List.getD_append _ _ _ _ (by omega)
  rw [listing, hfirst, if_neg hused, if_neg hkept, List.take_left' hlength, List.drop_left' hlength]

theorem listing_end (h : rest.getD 0 0 = 0) : listing n rest = [] := by
  cases n with
  | zero => rfl
  | succ n => rw [listing, if_pos h]

variable {es : List Entry} {isDirectory : Bool} {name entryName : List UInt8} {attributes : UInt8}
  {firstCluster size : Nat}

theorem find?_skip (h : named isDirectory name attributes entryName = false) :
    (⟨entryName, attributes, firstCluster, size⟩ :: es).find?
        (fun e => named isDirectory name e.attributes e.name) =
      es.find? fun e => named isDirectory name e.attributes e.name :=
  List.find?_cons_of_neg (by grind)

theorem find?_here (h : named isDirectory name attributes entryName = true) :
    (⟨entryName, attributes, firstCluster, size⟩ :: es).find?
        (fun e => named isDirectory name e.attributes e.name) =
      some ⟨entryName, attributes, firstCluster, size⟩ :=
  List.find?_cons_of_pos h

theorem walk_cons {v : ByteImage} {dir sub : List UInt8} {names : List (List UInt8)} {file : List UInt8}
    {e : Entry} (hfind : find dir true name = some e) (hchain : chain v 0 e.firstCluster = some [e.firstCluster])
    (hcluster : cluster v e.firstCluster = sub) : walk v dir (name :: names) file = walk v sub names file := by
  rw [walk, hfind, Option.bind_eq_bind, Option.bind_some, hchain, Option.bind_eq_bind, Option.bind_some, contents,
    List.flatMap_singleton, hcluster]

end Directories

end Wirth.Lib.Fat16

import Wirth.Kernel.Boot.WalkerSafety

namespace Wirth.Kernel.Boot

open Wirth.Lib Wirth.Lib.Walk Wirth.Lib.Job

-- Addresses as numbers.

def roundUp8 (n : Nat) : Nat := (n + 7) / 8 * 8

section Blocks

variable (m : Memory)

-- Tags one behind the other, each at the next multiple of 8, up to an end tag before `stop`.
inductive Layout (stop : Nat) : Nat → List Nat → Prop where
  | endTag {a : Nat} (htype : m.read32 a = kTagTypeEnd) (hfits : a + sizeofTagHeader ≤ stop) : Layout stop a []
  | tag {a : Nat} {l : List Nat} (htype : m.read32 a ≠ kTagTypeEnd) (hsize : sizeofTagHeader ≤ m.read32 (a + 4))
      (rest : Layout stop (roundUp8 (a + m.read32 (a + 4))) l) : Layout stop a (a :: l)

-- A memory map tag has room for the size of its entries, a module tag for its two addresses.
def IsMapTag (a : Nat) : Prop := m.read32 a = kTagTypeMemoryMap ∧ sizeofMemoryMapTag ≤ m.read32 (a + 4)

instance decidableIsMapTag (a : Nat) : Decidable (IsMapTag m a) := inferInstanceAs (Decidable (_ ∧ _))

def IsModuleTag (a : Nat) : Prop := m.read32 a = kTagTypeModule ∧ sizeofModuleTag ≤ m.read32 (a + 4)

instance decidableIsModuleTag (a : Nat) : Decidable (IsModuleTag m a) := inferInstanceAs (Decidable (_ ∧ _))

def entrySizeOf (a : Nat) : Nat := m.read32 (a + 8)

def entryCount (a : Nat) : Nat := (m.read32 (a + 4) - sizeofMemoryMapTag) / entrySizeOf m a

def entryAddress (a k : Nat) : Nat := a + sizeofMemoryMapTag + k * entrySizeOf m a

def entryAt (x : Nat) : Mm.MemoryMapEntryView where
  baseAddr := UInt64.ofNat (m.read32 x + 2 ^ 32 * m.read32 (x + 4))
  length := UInt64.ofNat (m.read32 (x + 8) + 2 ^ 32 * m.read32 (x + 12))
  type := UInt32.ofNat (m.read32 (x + 16))

def mapEntries (a : Nat) : List Mm.MemoryMapEntryView :=
  (List.range (entryCount m a)).map fun k => entryAt m (entryAddress m a k)

def moduleAt (w a : Nat) : ModuleView w := ⟨m.read32 (a + 8), m.read32 (a + 12), uintptr w (a + sizeofModuleTag)⟩

-- None of the addresses that belong to the block reaches `2 ^ w`, nor does one that is compared with
-- the end of a memory map.
structure WellFormed (w : Nat) (addr : UInt32) (tags : List Nat) : Prop where
  present : addr ≠ 0
  fits : addr.toNat + m.read32 addr.toNat < 2 ^ w
  layout : Layout m (addr.toNat + m.read32 addr.toNat) (addr.toNat + 8) tags
  entries : ∀ a ∈ tags, IsMapTag m a →
    sizeofMemoryMapEntry ≤ entrySizeOf m a ∧ entryAddress m a (entryCount m a + 1) < 2 ^ w

end Blocks

section Pointers

variable {w a b : Nat}

theorem uintptr_toNat (h : a < 2 ^ w) : (uintptr w a).toNat = a := by
  rw [uintptr, BitVec.toNat_ofNat, Nat.mod_eq_of_lt h]

theorem uintptr_add : uintptr w a + uintptr w b = uintptr w (a + b) := (BitVec.ofNat_add a b).symm

theorem uintptr_le_iff (ha : a < 2 ^ w) (hb : b < 2 ^ w) : uintptr w a ≤ uintptr w b ↔ a ≤ b := by
  grind [BitVec.le_def, uintptr_toNat]

theorem align8_toNat (v : BitVec w) : (v &&& ~~~(7 : BitVec w)).toNat = v.toNat / 8 * 8 := by
  have hmask : v &&& ~~~(7 : BitVec w) = (v >>> 3) <<< 3 := by
    apply BitVec.eq_of_getLsbD_eq
    intro i hi
    have hseven : (7 : BitVec w).getLsbD i = decide (i < 3) := by
      change (BitVec.ofNat w (2 ^ 3 - 1)).getLsbD i = _
      rw [BitVec.getLsbD_ofNat, Nat.testBit_two_pow_sub_one, decide_eq_true hi, Bool.true_and]
    rw [BitVec.getLsbD_and, BitVec.getLsbD_not, hseven, BitVec.getLsbD_shiftLeft, BitVec.getLsbD_ushiftRight]
    by_cases hlow : i < 3
    · simp [hlow]
    · grind
  rw [hmask, BitVec.toNat_shiftLeft, BitVec.toNat_ushiftRight, Nat.shiftLeft_eq, Nat.shiftRight_eq_div_pow]
  exact Nat.mod_eq_of_lt (lt_of_le_of_lt (Nat.div_mul_le_self _ _) v.isLt)

theorem align8_uintptr (h : a + 7 < 2 ^ w) : align8 (uintptr w a) = uintptr w (roundUp8 a) := by
  have hround : roundUp8 a < 2 ^ w := lt_of_le_of_lt (Nat.div_mul_le_self _ _) h
  apply BitVec.eq_of_toNat_eq
  rw [align8, align8_toNat, uintptr_toNat hround]
  have hadd : uintptr w a + 7 = uintptr w (a + 7) := uintptr_add
  rw [hadd, uintptr_toNat h, roundUp8]

end Pointers

section Tags

variable {m : Memory} {w stop a : Nat} {l : List Nat}

theorem le_roundUp8 (n : Nat) : n ≤ roundUp8 n ∧ roundUp8 n ≤ n + 7 := by
  rw [roundUp8]
  omega

theorem Layout.le (h : Layout m stop a l) : a + sizeofTagHeader ≤ stop := by
  induction h with
  | endTag _ hfits => exact hfits
  | @tag a l _ _ _ ih =>
    grind [le_roundUp8]

theorem Layout.tag_le (h : Layout m stop a l) {b : Nat} (hb : b ∈ l) :
    b + m.read32 (b + 4) + sizeofTagHeader ≤ stop := by
  induction h with
  | endTag _ _ => cases hb
  | @tag a l _ _ hrest ih =>
    rcases List.mem_cons.mp hb with rfl | hb
    · have hround := le_roundUp8 (b + m.read32 (b + 4))
      have hle := hrest.le
      omega
    · exact ih hb

theorem tagType_uintptr (h : a < 2 ^ w) : tagType m (uintptr w a) = m.read32 a := by
  rw [tagType, uintptr_toNat h]

theorem tagSize_uintptr (h : a + 4 < 2 ^ w) : tagSize m (uintptr w a) = m.read32 (a + 4) := by
  have hadd : uintptr w a + 4 = uintptr w (a + 4) := uintptr_add
  rw [tagSize, hadd, uintptr_toNat h]

theorem Layout.visits (h : Layout m stop a l) (hstop : stop < 2 ^ w) :
    ∃ z, Visits (tagNext m (uintptr w stop)) (uintptr w a) (l.map (uintptr w)) z := by
  have hinside : ∀ {a l}, Layout m stop a l →
      (uintptr w a + uintptr w sizeofTagHeader ≤ uintptr w stop) := by
    intro a l h
    have hle := h.le
    rw [uintptr_add, uintptr_le_iff (lt_of_le_of_lt hle hstop) hstop]
    exact hle
  induction h with
  | @endTag a htype hfits =>
    refine ⟨_, .last (if_neg fun h => h.2 ?_)⟩
    rw [tagType_uintptr (by omega), htype]
  | @tag a l htype hsize hrest ih =>
    obtain ⟨z, hvisits⟩ := ih
    have hle := (Layout.tag htype hsize hrest).tag_le List.mem_cons_self
    rw [sizeofTagHeader] at hle
    refine ⟨z, .step (b := uintptr w (roundUp8 (a + m.read32 (a + 4)))) ?_ hvisits⟩
    rw [tagNext, if_pos ⟨hinside (.tag htype hsize hrest), by rw [tagType_uintptr (by omega)]; exact htype⟩,
      tagSize_uintptr (by omega), uintptr_add, align8_uintptr (by omega)]

end Tags

section Entries

variable {m : Memory} {w a : Nat}

theorem entryView_uintptr {x : Nat} (h : x + 16 < 2 ^ w) : entryView m (uintptr w x) = entryAt m x := by
  have hlength : uintptr w x + 8 = uintptr w (x + 8) := uintptr_add
  have htype : uintptr w x + 16 = uintptr w (x + 16) := uintptr_add
  grind [entryView, entryAt, uintptr_toNat]

theorem entrySize_uintptr (h : a + 8 < 2 ^ w) : entrySize m (uintptr w a) = entrySizeOf m a := by
  have hadd : uintptr w a + 8 = uintptr w (a + 8) := uintptr_add
  rw [entrySize, hadd, uintptr_toNat h, entrySizeOf]

theorem entryAddress_succ (k : Nat) : entryAddress m a (k + 1) = entryAddress m a k + entrySizeOf m a := by
  simp [entryAddress, Nat.succ_mul, Nat.add_assoc]

theorem entryAddress_mono {j k : Nat} (h : j ≤ k) : entryAddress m a j ≤ entryAddress m a k :=
  Nat.add_le_add_left (Nat.mul_le_mul_right _ h) _

theorem entryAddress_le_iff {k : Nat} (hsize : sizeofMemoryMapTag ≤ m.read32 (a + 4))
    (hentry : sizeofMemoryMapEntry ≤ entrySizeOf m a) :
    entryAddress m a (k + 1) ≤ a + m.read32 (a + 4) ↔ k < entryCount m a := by
  have hpos : 0 < entrySizeOf m a := lt_of_lt_of_le (by decide) hentry
  rw [← Nat.add_one_le_iff, entryCount, Nat.le_div_iff_mul_le hpos, entryAddress]
  omega

theorem mapNext_uintptr {k : Nat} (hsize : sizeofMemoryMapTag ≤ m.read32 (a + 4))
    (hentry : sizeofMemoryMapEntry ≤ entrySizeOf m a) (hend : a + m.read32 (a + 4) < 2 ^ w)
    (hk : k ≤ entryCount m a) (hwrap : entryAddress m a (entryCount m a + 1) < 2 ^ w) :
    mapNext m (uintptr w a) (uintptr w (entryAddress m a k)) =
      if k < entryCount m a then some (uintptr w (entryAddress m a (k + 1))) else none := by
  rw [sizeofMemoryMapTag] at hsize
  have hlt : entryAddress m a (k + 1) < 2 ^ w := lt_of_le_of_lt (entryAddress_mono (Nat.succ_le_succ hk)) hwrap
  rw [mapNext, entryNext, entrySize_uintptr (by omega), tagSize_uintptr (by omega), uintptr_add, uintptr_add,
    ← entryAddress_succ]
  refine if_congr ?_ rfl rfl
  rw [uintptr_le_iff hlt hend, entryAddress_le_iff hsize hentry]
  exact and_iff_left hentry

theorem visits_entries (hsize : sizeofMemoryMapTag ≤ m.read32 (a + 4))
    (hentry : sizeofMemoryMapEntry ≤ entrySizeOf m a) (hend : a + m.read32 (a + 4) < 2 ^ w)
    (hwrap : entryAddress m a (entryCount m a + 1) < 2 ^ w) {left k : Nat} (hk : k + left = entryCount m a) :
    Visits (mapNext m (uintptr w a)) (uintptr w (entryAddress m a k))
      ((List.range' k left).map fun j => uintptr w (entryAddress m a j))
      (uintptr w (entryAddress m a (entryCount m a))) := by
  induction left generalizing k with
  | zero =>
    subst hk
    refine .last ?_
    rw [mapNext_uintptr hsize hentry hend (Nat.le_refl _) hwrap, if_neg (Nat.lt_irrefl _)]
  | succ left ih =>
    refine .step ?_ (ih (k := k + 1) (by omega))
    rw [mapNext_uintptr hsize hentry hend (by omega) hwrap, if_pos (by omega)]

end Entries

section Threads

variable {w : Nat} {S : Type} {H : Nat → BitVec w → S → S → List Read → Prop} {effect : Nat → S → S}

theorem threads_of_effects {l : List Nat}
    (h : ∀ a ∈ l, ∃ n ds, ∀ n', n ≤ n' → ∀ s, H n' (uintptr w a) s (effect a s) ds) :
    ∃ n es, ∀ n', n ≤ n' → ∀ s, Threads (H n') (l.map (uintptr w)) s (l.foldl (fun s a => effect a s) s) es := by
  induction l with
  | nil => exact ⟨0, [], fun _ _ s => .nil⟩
  | cons a l ih =>
    obtain ⟨⟨n, ds, hH⟩, hrest⟩ := List.forall_mem_cons.mp h
    obtain ⟨k, es, hthreads⟩ := ih hrest
    exact ⟨max n k, _, fun n' hn' s =>
      .cons (hH n' (le_of_max_le_left hn') s) (hthreads n' (le_of_max_le_right hn') _)⟩

end Threads

namespace WellFormed

variable {w : Nat} {m : Memory} {addr : UInt32} {tags : List Nat} (h : WellFormed m w addr tags)

include h

theorem tag_lt {a : Nat} (ha : a ∈ tags) : a + m.read32 (a + 4) + 8 < 2 ^ w :=
  lt_of_le_of_lt (h.layout.tag_le ha) h.fits

theorem infoOf_toNat : (infoOf w addr).toNat = addr.toNat :=
  uintptr_toNat (lt_of_le_of_lt (Nat.le_add_right _ _) h.fits)

theorem infoOf_ne_zero : infoOf w addr ≠ 0 := by
  intro hzero
  have hnat := h.infoOf_toNat
  rw [hzero] at hnat
  exact h.present (UInt32.toNat_inj.mp (hnat.symm.trans (Nat.zero_mod _)))

theorem finishes {S : Type} {onTag : Nat → BitVec w → Nat → Nat → Bool → Scan S Verdict}
    {H : Nat → BitVec w → S → S → List Read → Prop} {such : BitVec w → Bool} {kind : Nat → Bool}
    {effect : Nat → S → S}
    (honTag : ∀ rounds a found s r t es, Ends (onTag rounds a (tagType m a) (tagSize m a) found) s r t es ↔
      r = .goOn (found || such a) ∧ H rounds a s t es)
    (hkind : ∀ a ∈ tags, such (uintptr w a) = kind a)
    (heffect : ∀ a ∈ tags, ∃ n ds, ∀ n', n ≤ n' → ∀ s, H n' (uintptr w a) s (effect a s) ds) (s : S) :
    ∃ es, Finishes (fun rounds => walkTags m (onTag rounds) rounds addr) s (tags.any kind)
      (tags.foldl (fun s a => effect a s) s) es := by
  obtain ⟨n, ds, hthreads⟩ := threads_of_effects heffect
  have hend : blockEnd m (infoOf w addr) = uintptr w (addr.toNat + m.read32 addr.toNat) := by
    rw [blockEnd, h.infoOf_toNat]
    exact uintptr_add
  have hstart : infoOf w addr + 8 = uintptr w (addr.toNat + 8) := uintptr_add
  obtain ⟨z, hvisits⟩ := h.layout.visits h.fits
  refine ⟨⟨(infoOf w addr).toNat, 4⟩ :: (ds ++ lastReads (blockEnd m (infoOf w addr)) z), max n (tags.length + 1),
    fun rounds hrounds => ?_⟩
  refine (ends_walkTags rfl h.infoOf_ne_zero fun a _ _ => honTag rounds a).mpr
    ⟨tags.map (uintptr w), z, ds, ?_, ?_, ?_, hthreads rounds (le_of_max_le_left hrounds) s, rfl⟩
  · grind [infoOf]
  · grind
  grind

theorem isMemoryMap_iff {a : Nat} (ha : a ∈ tags) :
    IsMemoryMap m (uintptr w a) ↔ IsMapTag m a := by
  have hlt := h.tag_lt ha
  grind [IsMemoryMap, IsMapTag, tagType_uintptr, tagSize_uintptr]

theorem isModule_iff {a : Nat} (ha : a ∈ tags) :
    IsModule m (uintptr w a) ↔ IsModuleTag m a := by
  have hlt := h.tag_lt ha
  grind [IsModule, IsModuleTag, tagType_uintptr, tagSize_uintptr]

theorem mapHandled {S : Type} {a : Nat} (ha : a ∈ tags)
    (visitor : Mm.MemoryMapEntryView → S → S) : ∃ n ds, ∀ n', n ≤ n' → ∀ s, MapHandled m visitor n' (uintptr w a) s
      (if IsMapTag m a then (mapEntries m a).foldl (fun s view => visitor view s) s else s) ds := by
  by_cases hmap : IsMapTag m a
  · have hlt := h.tag_lt ha
    obtain ⟨hentry, hwrap⟩ := h.entries a ha hmap
    have hvisits := @visits_entries m w a hmap.2 hentry (by omega) hwrap (entryCount m a) 0 (Nat.zero_add _)
    have hstart : uintptr w (entryAddress m a 0) = uintptr w a + uintptr w sizeofMemoryMapTag := by
      rw [uintptr_add, entryAddress, Nat.zero_mul, Nat.add_zero]
    rw [hstart] at hvisits
    refine ⟨entryCount m a + 1, mapReads (uintptr w a) ((List.range' 0 (entryCount m a)).map fun j =>
      uintptr w (entryAddress m a j)), fun n' hn' s => ?_⟩
    rw [MapHandled, if_pos ((h.isMemoryMap_iff ha).mpr hmap), if_pos hmap]
    refine ⟨_, _, hvisits, ?_, ?_, rfl⟩
    · grind
    · rw [List.map_map, ← List.range_eq_range', mapEntries]
      congr 1
      refine List.map_congr_left fun k hk => ?_
      have hnext : entryAddress m a (k + 1) ≤ entryAddress m a (entryCount m a + 1) :=
        entryAddress_mono (Nat.succ_le_succ (List.mem_range.mp hk).le)
      rw [entryAddress_succ] at hnext
      rw [sizeofMemoryMapEntry] at hentry
      exact (entryView_uintptr (by omega)).symm
  · refine ⟨0, [], fun n' _ s => ?_⟩
    rw [MapHandled, if_neg (mt (h.isMemoryMap_iff ha).mp hmap), if_neg hmap]
    exact ⟨rfl, rfl⟩

theorem moduleHandled {S : Type} {a : Nat} (ha : a ∈ tags)
    (visitor : ModuleView w → S → S) : ∃ ds, ∀ s, ModuleHandled m visitor (uintptr w a) s
      (if IsModuleTag m a then visitor (moduleAt m w a) s else s) ds := by
  by_cases hmodule : IsModuleTag m a
  · have hlt := h.tag_lt ha
    have hsize := hmodule.2
    rw [sizeofModuleTag] at hsize
    have hstart : uintptr w a + 8 = uintptr w (a + 8) := uintptr_add
    have hend : uintptr w a + 12 = uintptr w (a + 12) := uintptr_add
    have hview : moduleView m (uintptr w a) = moduleAt m w a := by
      rw [moduleView, moduleAt, hstart, hend, uintptr_toNat (by omega), uintptr_toNat (by omega), uintptr_add]
    refine ⟨[⟨(uintptr w a + 8).toNat, 4⟩, ⟨(uintptr w a + 12).toNat, 4⟩], fun s => ?_⟩
    rw [ModuleHandled, if_pos ((h.isModule_iff ha).mpr hmodule), if_pos hmodule, hview]
    exact ⟨rfl, rfl⟩
  · refine ⟨[], fun s => ?_⟩
    rw [ModuleHandled, if_neg (mt (h.isModule_iff ha).mp hmodule), if_neg hmodule]
    exact ⟨rfl, rfl⟩

variable {S : Type}

theorem maps_visited (visitor : Mm.MemoryMapEntryView → S → S) (s : S) :
    ∃ es, Finishes (visitMemoryMap w m (some visitor) addr) s (tags.any fun a => IsMapTag m a)
      (((tags.filter fun a => IsMapTag m a).flatMap (mapEntries m)).foldl (fun s view => visitor view s) s) es := by
  have hkind : ∀ a ∈ tags, decide (IsMemoryMap m (uintptr w a)) = decide (IsMapTag m a) :=
    fun a ha => decide_eq_decide.mpr (h.isMemoryMap_iff ha)
  have hwalk := h.finishes (fun rounds a found s r t es => ends_memoryMapTag) hkind
    (fun a ha => h.mapHandled ha visitor) s
  rw [List.foldl_flatMap, List.foldl_filter]
  simp only [decide_eq_true_eq]
  exact hwalk

theorem modules_visited (visitor : ModuleView w → S → S) (s : S) :
    ∃ es, Finishes (visitModules w m (some visitor) addr) s (tags.any fun a => IsModuleTag m a)
      (((tags.filter fun a => IsModuleTag m a).map (moduleAt m w)).foldl (fun s view => visitor view s) s) es := by
  have hkind : ∀ a ∈ tags, decide (IsModule m (uintptr w a)) = decide (IsModuleTag m a) :=
    fun a ha => decide_eq_decide.mpr (h.isModule_iff ha)
  have hhandled : ∀ a ∈ tags, ∃ n ds, ∀ n' : Nat, n ≤ n' → ∀ s, ModuleHandled m visitor (uintptr w a) s
      (if IsModuleTag m a then visitor (moduleAt m w a) s else s) ds := by
    intro a ha
    obtain ⟨ds, hds⟩ := h.moduleHandled ha visitor
    exact ⟨0, ds, fun n' _ => hds⟩
  have hwalk := h.finishes (fun rounds a found s r t es => ends_moduleTag) hkind hhandled s
  rw [List.foldl_map, List.foldl_filter]
  simp only [decide_eq_true_eq]
  exact hwalk

end WellFormed

-- The visitors see exactly what the block lists.
theorem decoding_exact {w : Nat} {m : Memory} {addr : UInt32} {tags : List Nat} (h : WellFormed m w addr tags)
    {S : Type} (mapVisitor : Mm.MemoryMapEntryView → S → S) (moduleVisitor : ModuleView w → S → S) (s : S) :
    (∃ es, Finishes (visitMemoryMap w m (some mapVisitor) addr) s (tags.any fun a => IsMapTag m a)
      (((tags.filter fun a => IsMapTag m a).flatMap (mapEntries m)).foldl (fun s view => mapVisitor view s) s) es) ∧
    ∃ es, Finishes (visitModules w m (some moduleVisitor) addr) s (tags.any fun a => IsModuleTag m a)
      (((tags.filter fun a => IsModuleTag m a).map (moduleAt m w)).foldl (fun s view => moduleVisitor view s) s)
      es :=
  ⟨h.maps_visited mapVisitor s, h.modules_visited moduleVisitor s⟩

-- A memory map of two entries of 32 bytes, a tag that neither function knows, and a module.
def sampleBlock : Memory := blockAt 0x1000
  ([136, 0, 0, 0, 0, 0, 0, 0] ++
    [6, 0, 0, 0, 80, 0, 0, 0, 32, 0, 0, 0, 0, 0, 0, 0] ++
    ([0, 0, 0, 0, 0, 0, 0, 0, 0, 0xFC, 9, 0, 0, 0, 0, 0, 1, 0, 0, 0, 0, 0, 0, 0] ++ List.replicate 8 0) ++
    ([0, 0, 16, 0, 0, 0, 0, 0, 0, 0, 0, 1, 0, 0, 0, 0, 2, 0, 0, 0, 0, 0, 0, 0] ++ List.replicate 8 0) ++
    [1, 0, 0, 0, 9, 0, 0, 0, 0, 0, 0, 0, 0, 0, 0, 0] ++
    [3, 0, 0, 0, 20, 0, 0, 0, 0, 0, 32, 0, 0, 1, 32, 0, 114, 111, 111, 0, 0, 0, 0, 0] ++
    [0, 0, 0, 0, 8, 0, 0, 0])

theorem sampleBlock_wellFormed : WellFormed sampleBlock 32 0x1000 [0x1008, 0x1058, 0x1068] := by
  refine ⟨by decide, by decide +kernel, ?_, by decide +kernel⟩
  refine .tag (by decide +kernel) (by decide +kernel) ?_
  refine .tag (by decide +kernel) (by decide +kernel) ?_
  refine .tag (by decide +kernel) (by decide +kernel) ?_
  exact .endTag (by decide +kernel) (by decide +kernel)

theorem sampleBlock_decoded :
    (∃ es, Finishes (visitMemoryMap 32 sampleBlock (some fun view s => s ++ [Sum.inl view]) 0x1000)
      ([] : List (Mm.MemoryMapEntryView ⊕ ModuleView 32)) true
      [.inl ⟨0, 0x9FC00, 1⟩, .inl ⟨0x100000, 0x1000000, 2⟩] es) ∧
    ∃ es, Finishes (visitModules 32 sampleBlock (some fun view s => s ++ [Sum.inr view]) 0x1000)
      ([] : List (Mm.MemoryMapEntryView ⊕ ModuleView 32)) true [.inr ⟨0x200000, 0x200100, 0x1078⟩] es := by
  have hdecoded := decoding_exact sampleBlock_wellFormed
    (fun view (s : List (Mm.MemoryMapEntryView ⊕ ModuleView 32)) => s ++ [Sum.inl view])
    (fun view s => s ++ [Sum.inr view]) []
  have hmaps : ([0x1008, 0x1058, 0x1068].filter fun a => IsMapTag sampleBlock a) = [0x1008] := by decide +kernel
  have hmodules : ([0x1008, 0x1058, 0x1068].filter fun a => IsModuleTag sampleBlock a) = [0x1068] := by
    decide +kernel
  rw [hmaps, hmodules] at hdecoded
  exact hdecoded

end Wirth.Kernel.Boot

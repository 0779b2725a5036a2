import Wirth.Kernel.Block.Confinement

namespace Wirth.Kernel.Block

open Wirth.Lib

def registerDisks : List Nat → Blocks → Blocks
  | [], st => st
  | id :: rest, st => registerDisks rest ((blockRegisterDevice st (.disk id)).getD st)

-- The devices in the order of the table. It is filled from the front.
def Packed (st : Blocks) (ds : List Pointer) : Prop :=
  ds.length ≤ 8 ∧ ∀ i : Fin 8, st.devices i = ds[i.val]?

def allDevices (disks : List Nat) (regs : List Registration) : List Pointer :=
  disks.map Pointer.disk ++ regs.map fun r => Pointer.partition r.slot

structure Scanning (drivers : Nat → Driver) (disks : List Nat) (st : Blocks)
    (regs : List Registration) : Prop where
  sound : Sound drivers st regs
  slots : (regs.map Registration.slot).Nodup
  packed : Packed st (allDevices disks regs)

-- The first sector of a disk can be read and is a table with an entry that is in use.
def Driver.Lists (driver : Driver) : Prop :=
  driver.reads = true ∧ ∃ mbr, driver.sector 0 = some mbr ∧ Signed mbr ∧ ∃ i < 4, Listed mbr i

section Packed

variable {st st' : Blocks} {ds : List Pointer} {dev : Pointer}

theorem packed_empty : Packed .empty [] := ⟨by simp, fun i => by simp [Blocks.empty]⟩

theorem Packed.has_iff (h : Packed st ds) : st.Has dev ↔ dev ∈ ds := by
  rw [List.mem_iff_getElem?]
  constructor
  · rintro ⟨j, hj⟩
    exact ⟨j, by rw [← h.2 j, hj]⟩
  · rintro ⟨k, hk⟩
    have hlt : k < ds.length := (List.getElem?_eq_some_iff.mp hk).1
    exact ⟨⟨k, by have := h.1; omega⟩, by rw [h.2, hk]⟩

theorem Packed.register (h : Packed st ds) (hst : blockRegisterDevice st dev = some st') :
    Packed st' (ds ++ [dev]) := by
  obtain ⟨i, hfree, rfl⟩ := blockRegisterDevice_eq_some.mp hst
  have hnone : ds.length ≤ i := by
    have hi : st.devices i = none := by simpa using firstSlot_eq_some hfree
    rw [h.2] at hi
    exact List.getElem?_eq_none_iff.mp hi
  have hi : i.val = ds.length := by
    by_contra hne
    have hlt : ds.length < i.val := by omega
    have htaken := @firstSlot_first _ _ _ _ _ ⟨ds.length, by omega⟩ hfree hlt
    rw [h.2] at htaken
    simp at htaken
  refine ⟨by grind, fun j => ?_⟩
  by_cases hj : j = i
  · grind
  · refine (Function.update_of_ne hj ..).trans ?_
    rw [h.2]
    rcases Nat.lt_or_gt_of_ne (fun he => hj (Fin.ext he)) with hlt | hgt
    · rw [List.getElem?_append_left (by omega)]
    grind

theorem Packed.register_eq_none (h : Packed st ds) :
    blockRegisterDevice st dev = none ↔ ds.length = 8 := by
  rw [blockRegisterDevice, Option.map_eq_none_iff]
  constructor
  · intro hnone
    by_contra hne
    have htaken := firstSlot_eq_none hnone ⟨ds.length, by have := h.1; omega⟩
    rw [h.2] at htaken
    simp at htaken
  · intro hlen
    cases hfree : firstSlot Option.isNone st.devices with
    | none => rfl
    | some i =>
      have hi := firstSlot_eq_some hfree
      rw [h.2, List.getElem?_eq_getElem (by omega)] at hi
      simp at hi

end Packed

section Scan

variable {drivers : Nat → Driver} {disks : List Nat} {st : Blocks} {regs : List Registration}

theorem allDevices_append (disks : List Nat) (regs : List Registration) (r : Registration) :
    allDevices disks (regs ++ [r]) = allDevices disks regs ++ [.partition r.slot] := by
  rw [allDevices, allDevices, List.map_append, ← List.append_assoc, List.map_singleton]

theorem registerDisks_scanning {before : List Nat} (h : Scanning drivers before st [])
    (hlen : before.length + disks.length ≤ 8) :
    Scanning drivers (before ++ disks) (registerDisks disks st) [] := by
  induction disks generalizing before st with
  | nil => simpa [registerDisks] using h
  | cons id rest ih =>
    rw [List.length_cons] at hlen
    have hdevices : allDevices before [] = before.map Pointer.disk := by simp [allDevices]
    cases hst : blockRegisterDevice st (.disk id) with
    | none =>
      rw [h.packed.register_eq_none, hdevices, List.length_map] at hst
      omega
    | some st' =>
      have hnext : Scanning drivers (before ++ [id]) st' [] := by
        refine ⟨h.sound.register_disk hst, by simp, ?_⟩
        have hpacked := h.packed.register hst
        simpa [allDevices] using hpacked
      have hrest := ih hnext (by rw [List.length_append, List.length_singleton]; omega)
      rw [registerDisks, hst, Option.getD_some]
      simpa using hrest

theorem Scanning.start (hlen : disks.length ≤ 8) :
    Scanning drivers disks (registerDisks disks .empty) [] := by
  have hempty : Scanning drivers [] .empty [] := ⟨sound_empty drivers, by simp, packed_empty⟩
  simpa using registerDisks_scanning hempty (by simpa using hlen)

theorem Scanning.register (h : Scanning drivers disks st regs) {st' : Blocks} {r : Registration}
    (hbase : st.Has r.base) (hlisted : Listed r.mbr r.index)
    (hfree : (st.partitions r.slot).used = false)
    (hst : blockRegisterDevice (st.setPartition r.slot (r.toRecord (st.device drivers r.base)))
      (.partition r.slot) = some st') : Scanning drivers disks st' (regs ++ [r]) := by
  have hfresh : ∀ q ∈ regs, q.slot ≠ r.slot := by
    intro q hq heq
    rw [← heq, h.sound.toRecord q hq] at hfree
    cases hfree
  refine ⟨h.sound.register_partition hbase hlisted hfree hst, ?_, ?_⟩
  · rw [List.map_append, List.map_singleton, List.nodup_append]
    refine ⟨h.slots, List.nodup_singleton _, fun a ha b hb => ?_⟩
    grind
  · have hpacked : Packed (st.setPartition r.slot (r.toRecord (st.device drivers r.base)))
        (allDevices disks regs) := h.packed
    rw [allDevices_append]
    exact hpacked.register hst

theorem Scanning.scan (h : Scanning drivers disks st regs) {base : Pointer} (hbase : st.Has base) :
    Scanning drivers disks (scanMbrPartitions drivers base st).1
      (regs ++ (scanMbrPartitions drivers base st).2) := by
  refine (@scanMbrPartitions_rule _ _ _ (fun st regs => Scanning drivers disks st regs ∧ st.Has base) _
    ?_ ?_ ⟨h, hbase⟩).1
  · rintro st st' regs mbr i slot ⟨hscanning, hhas⟩ hlisted hfree hst
    exact ⟨@Scanning.register _ _ _ _ hscanning _ ⟨base, mbr, i, slot⟩ hhas hlisted hfree hst,
      (has_of_register hst).mpr (.inr hhas)⟩
  · rintro st regs slot rec_ ⟨hscanning, hhas⟩ hfree
    exact ⟨⟨hscanning.sound.give_back hfree, hscanning.slots, hscanning.packed⟩, hhas⟩

-- Each entry of the table is used at most once, in the order of the table.
theorem scanEntries_pairs (base : Pointer) (mbr : Sector) (indices : List Nat) :
    List.Sublist ((scanEntries drivers base mbr indices st).2.map fun r => (r.base, r.index))
      (indices.map fun i => (base, i)) := by
  induction indices generalizing st with
  | nil => exact List.Sublist.refl _
  | cons i rest ih =>
    rw [scanEntries, List.map_cons]
    grind

theorem scanMbrPartitions_pairs (base : Pointer) (st : Blocks) :
    List.Sublist ((scanMbrPartitions drivers base st).2.map fun r => (r.base, r.index))
      [(base, 0), (base, 1), (base, 2), (base, 3)] := by
  rw [scanMbrPartitions]
  by_cases hread : (st.device drivers base).readSectors.isNone = true
  · rw [if_pos hread]
    exact List.nil_sublist _
  · rw [if_neg hread]
    cases st.readSector drivers base 0 with
    | none => exact List.nil_sublist _
    | some mbr =>
      by_cases hsigned : Signed mbr
      · simp only [if_pos hsigned]
        exact scanEntries_pairs base mbr [0, 1, 2, 3]
      simp [hsigned]

theorem scanMbrPartitions_base {base : Pointer} {r : Registration}
    (hr : r ∈ (scanMbrPartitions drivers base st).2) : r.base = base := by
  have hpair := (scanMbrPartitions_pairs base st).subset (List.mem_map_of_mem hr)
  grind

theorem scanEntries_eq_nil_iff {base : Pointer} {mbr : Sector} {indices : List Nat}
    (h : Scanning drivers disks st []) : (scanEntries drivers base mbr indices st).2 = [] ↔
      disks.length = 8 ∨ ∀ i ∈ indices, ¬Listed mbr i := by
  induction indices generalizing st with
  | nil => simp [scanEntries]
  | cons i rest ih =>
    rw [scanEntries]
    by_cases hlisted : Listed mbr i
    · have hfree : ∀ slot, (st.partitions slot).used = false := by
        intro slot
        by_contra hused
        obtain ⟨r, hr, -⟩ := h.sound.used slot (Bool.not_eq_false _ ▸ hused)
        cases hr
      cases hslot : findFreeSlot st with
      | none =>
        have := firstSlot_eq_none hslot 0
        simp [hfree 0] at this
      | some slot =>
        have hpacked : Packed (st.setPartition slot ((⟨base, mbr, i, slot⟩ : Registration).toRecord
            (st.device drivers base))) (allDevices disks []) := h.packed
        have hfull := @Packed.register_eq_none _ _ (.partition slot) hpacked
        rw [allDevices, List.map_nil, List.append_nil, List.length_map] at hfull
        cases hst : blockRegisterDevice (st.setPartition slot
            ((⟨base, mbr, i, slot⟩ : Registration).toRecord (st.device drivers base)))
            (.partition slot) with
        | none =>
          have hback : Scanning drivers disks (st.setPartition slot
              { (⟨base, mbr, i, slot⟩ : Registration).toRecord (st.device drivers base) with
                used := false }) [] :=
            ⟨h.sound.give_back (hfree slot), h.slots, h.packed⟩
          grind
        | some st' =>
          grind
    · rw [if_pos hlisted, ih h, List.forall_mem_cons]
      exact or_congr_right (and_iff_right hlisted).symm

theorem readSector_disk {d : Nat} (h : (drivers d).reads = true) :
    st.readSector drivers (.disk d) 0 = (drivers d).sector 0 := by
  simp [Blocks.readSector, Blocks.locate, Blocks.device, Driver.device, h]

theorem scanMbrPartitions_eq_nil_iff {d : Nat} (h : Scanning drivers disks st []) :
    (scanMbrPartitions drivers (.disk d) st).2 = [] ↔ disks.length = 8 ∨ ¬(drivers d).Lists := by
  rw [scanMbrPartitions]
  by_cases hreads : (drivers d).reads = true
  · rw [if_neg (by simp [Blocks.device, Driver.device, hreads]), readSector_disk hreads]
    cases hsector : (drivers d).sector 0 with
    | none => simp [Driver.Lists, hsector]
    | some mbr =>
      by_cases hsigned : Signed mbr
      · simp only [if_pos hsigned, scanEntries_eq_nil_iff h]
        refine or_congr_right ?_
        simp only [Driver.Lists, hreads, hsector, Option.some.injEq, true_and, exists_eq_left', hsigned]
        grind
      · simp [Driver.Lists, hsector, hsigned]
  simp [Blocks.device, Driver.device, Driver.Lists, hreads]

end Scan

section Visit

variable {drivers : Nat → Driver} {disks : List Nat} {st : Blocks} {regs : List Registration}

theorem allDevices_nodup (hdistinct : disks.Nodup) (hslots : (regs.map Registration.slot).Nodup) :
    (allDevices disks regs).Nodup := by
  rw [allDevices, List.nodup_append]
  refine ⟨hdistinct.map fun _ _ h => Pointer.disk.inj h, ?_, ?_⟩
  · grind
  simp

variable {slots : List (Fin 8)}

theorem visitDevices_empty (h : ∀ i ∈ slots, st.devices i = none) :
    visitDevices drivers slots st = ⟨st, [], []⟩ := by
  induction slots with
  | nil => rfl
  | cons i rest ih =>
    grind [visitDevices]

theorem allDevices_getElem? {more : List Registration} {k : Nat} {dev : Pointer}
    (h : (allDevices disks regs)[k]? = some dev) : (allDevices disks (regs ++ more))[k]? = some dev := by
  obtain ⟨hk, -⟩ := List.getElem?_eq_some_iff.mp h
  rw [allDevices, List.map_append, ← List.append_assoc]
  exact (List.getElem?_append_left hk).trans h

-- Every device that is there in the end has been scanned: a partition has a place behind the device
-- it was found on.
theorem visitDevices_scanned {n k : Nat} (hk : k + n = 8) (h : Scanning drivers disks st regs) :
    Scanning drivers disks (visitDevices drivers ((List.finRange 8).drop k) st).blocks
      (regs ++ (visitDevices drivers ((List.finRange 8).drop k) st).registered) ∧
    (visitDevices drivers ((List.finRange 8).drop k) st).scanned =
      (allDevices disks (regs ++
        (visitDevices drivers ((List.finRange 8).drop k) st).registered)).drop k := by
  induction n generalizing k st regs with
  | zero =>
    obtain rfl : k = 8 := by omega
    rw [List.drop_eq_nil_of_le (by simp), visitDevices, List.append_nil]
    exact ⟨h, (List.drop_eq_nil_of_le h.packed.1).symm⟩
  | succ n ih =>
    have hlt : k < (List.finRange 8).length := by simp; omega
    have hdrop : (List.finRange 8).drop k = ⟨k, by omega⟩ :: (List.finRange 8).drop (k + 1) := by
      rw [List.drop_eq_getElem_cons hlt, List.getElem_finRange]
      rfl
    have hget := h.packed.2 ⟨k, by omega⟩
    cases hdev : st.devices ⟨k, by omega⟩ with
    | none =>
      rw [hdev] at hget
      have hlen : (allDevices disks regs).length ≤ k := List.getElem?_eq_none_iff.mp hget.symm
      have hempty : ∀ i ∈ (List.finRange 8).drop k, st.devices i = none := by
        intro i hi
        rw [h.packed.2]
        obtain ⟨j, hj, rfl⟩ := List.mem_iff_getElem.mp hi
        refine List.getElem?_eq_none ?_
        rw [List.getElem_drop, List.getElem_finRange]
        simp only [Fin.val_cast]
        omega
      rw [visitDevices_empty hempty, List.append_nil]
      exact ⟨h, (List.drop_eq_nil_of_le hlen).symm⟩
    | some dev =>
      have hscan := h.scan ⟨_, hdev⟩
      obtain ⟨hscanning, hscanned⟩ := ih (show k + 1 + n = 8 by omega) hscan
      rw [hdrop, visitDevices, hdev]
      rw [← List.append_assoc]
      refine ⟨hscanning, ?_⟩
      rw [hdev] at hget
      have hfinal := @allDevices_getElem? _ _
        ((scanMbrPartitions drivers dev st).2 ++ (visitDevices drivers ((List.finRange 8).drop (k + 1))
          (scanMbrPartitions drivers dev st).1).registered) _ _ hget.symm
      grind [List.drop_eq_getElem_cons]

theorem visitDevices_pairs (h : (visitDevices drivers slots st).scanned.Nodup) :
    ((visitDevices drivers slots st).registered.map fun r => (r.base, r.index)).Nodup ∧
      ∀ r ∈ (visitDevices drivers slots st).registered,
        r.base ∈ (visitDevices drivers slots st).scanned := by
  induction slots generalizing st with
  | nil => simp [visitDevices]
  | cons i rest ih =>
    rw [visitDevices] at h ⊢
    cases hdev : st.devices i with
    | none =>
      rw [hdev] at h
      exact ih h
    | some dev =>
      rw [hdev] at h
      obtain ⟨hnew, hrest⟩ := List.nodup_cons.mp h
      obtain ⟨hpairs, hbases⟩ := ih hrest
      constructor
      · rw [List.map_append, List.nodup_append]
        refine ⟨(scanMbrPartitions_pairs dev st).nodup (by simp), hpairs, ?_⟩
        rintro a ha b hb rfl
        obtain ⟨r, hr, rfl⟩ := List.mem_map.mp ha
        obtain ⟨q, hq, heq⟩ := List.mem_map.mp hb
        have hbase : q.base = dev := (congrArg Prod.fst heq).trans (scanMbrPartitions_base hr)
        exact hnew (hbase ▸ hbases q hq)
      grind [scanMbrPartitions_base]

theorem visitDevices_eq_nil_iff (h : Scanning drivers disks st []) :
    (visitDevices drivers slots st).registered = [] ↔
      disks.length = 8 ∨ ∀ i ∈ slots, ∀ d, disks[i.val]? = some d → ¬(drivers d).Lists := by
  induction slots generalizing st with
  | nil => simp [visitDevices]
  | cons i rest ih =>
    have hget : st.devices i = (disks[i.val]?).map Pointer.disk := by
      rw [h.packed.2, allDevices, List.map_nil, List.append_nil, List.getElem?_map]
    rw [visitDevices, List.forall_mem_cons]
    cases hdisk : disks[i.val]? with
    | none =>
      grind
    | some d =>
      rw [hget, hdisk, Option.map_some]
      have hfound := @scanMbrPartitions_eq_nil_iff _ _ _ d h
      have hscan := h.scan ⟨i, by rw [hget, hdisk, Option.map_some]⟩
      simp only [List.append_eq_nil_iff]
      grind

theorem visitDevices_eq_nil_all (h : Scanning drivers disks st []) (hlen : disks.length ≤ 8) :
    (visitDevices drivers (List.finRange 8) st).registered = [] ↔
      disks.length = 8 ∨ ∀ d ∈ disks, ¬(drivers d).Lists := by
  rw [visitDevices_eq_nil_iff h]
  refine or_congr_right ⟨fun hall d hd => ?_, fun hall i _ d hd => hall d (List.mem_of_getElem? hd)⟩
  obtain ⟨k, hk⟩ := List.mem_iff_getElem?.mp hd
  have hlt : k < disks.length := (List.getElem?_eq_some_iff.mp hk).1
  exact hall ⟨k, by omega⟩ (List.mem_finRange _) d hk

end Visit

-- Every partition comes from an entry of its own on one of the disks, and only disks are scanned.
structure OncePerEntry (disks : List Nat) (v : Visit) : Prop where
  fromDisk : ∀ slot, v.blocks.Has (.partition slot) →
    ∃ r ∈ v.registered, r.slot = slot ∧ ∃ d ∈ disks, r.base = .disk d
  distinct : (v.registered.map fun r => (r.base, r.index)).Nodup
  scansDisks : ∀ dev ∈ v.scanned, ∃ d ∈ disks, dev = .disk d

-- No entry is used twice, but every partition that gets a device is scanned as well.
theorem scanned_once_iff (drivers : Nat → Driver) {disks : List Nat} (hdistinct : disks.Nodup)
    (hlen : disks.length ≤ 8) :
    ((scanAtBoot drivers (registerDisks disks .empty)).registered.map fun r => (r.base, r.index)).Nodup ∧
    (∀ dev, dev ∈ (scanAtBoot drivers (registerDisks disks .empty)).scanned ↔
      (scanAtBoot drivers (registerDisks disks .empty)).blocks.Has dev) ∧
    (OncePerEntry disks (scanAtBoot drivers (registerDisks disks .empty)) ↔
      disks.length = 8 ∨ ∀ d ∈ disks, ¬(drivers d).Lists) := by
  have hstart : Scanning drivers disks (registerDisks disks .empty) [] := .start hlen
  obtain ⟨hend, hscanned⟩ := visitDevices_scanned (show 0 + 8 = 8 from rfl) hstart
  rw [List.drop_zero, List.nil_append] at hend
  rw [List.drop_zero, List.drop_zero, List.nil_append] at hscanned
  have hnodup := allDevices_nodup hdistinct hend.slots
  rw [← hscanned] at hnodup
  have hpairs := (visitDevices_pairs hnodup).1
  have hhas : ∀ dev, dev ∈ (visitDevices drivers (List.finRange 8) (registerDisks disks .empty)).scanned ↔
      (visitDevices drivers (List.finRange 8) (registerDisks disks .empty)).blocks.Has dev := by
    intro dev
    rw [hend.packed.has_iff, hscanned]
  refine ⟨hpairs, hhas, ?_⟩
  rw [← visitDevices_eq_nil_all hstart hlen]
  constructor
  · intro honce
    refine List.eq_nil_iff_forall_not_mem.mpr fun r hr => ?_
    have hmem : Pointer.partition r.slot ∈
        (visitDevices drivers (List.finRange 8) (registerDisks disks .empty)).scanned := by
      rw [hscanned, allDevices]
      exact List.mem_append_right _ (List.mem_map_of_mem hr)
    obtain ⟨d, -, hdisk⟩ := honce.scansDisks _ hmem
    cases hdisk
  · intro hnil
    have honly : ∀ dev, dev ∈
        (visitDevices drivers (List.finRange 8) (registerDisks disks .empty)).scanned →
          ∃ d ∈ disks, dev = .disk d := by
      intro dev hdev
      rw [hscanned, hnil, allDevices, List.map_nil, List.append_nil] at hdev
      obtain ⟨d, hd, rfl⟩ := List.mem_map.mp hdev
      exact ⟨d, hd, rfl⟩
    refine ⟨fun slot hslot => ?_, hpairs, honly⟩
    obtain ⟨d, -, hdisk⟩ := honly _ ((hhas _).mpr hslot)
    cases hdisk

-- A disk without a partition table.
theorem blank_disk_once : OncePerEntry [0] (scanAtBoot (fun _ => ⟨none, 512, 8, true, true, fun _ =>
    some .zero⟩) (registerDisks [0] .empty)) := by
  refine (scanned_once_iff _ (by decide) (by decide)).2.2.mpr (.inr fun d _ => ?_)
  rintro ⟨-, mbr, hmbr, hsigned, -⟩
  cases hmbr
  revert hsigned
  decide +kernel

-- The first sector of the partition looks like a partition table as well.
def nestedDisk : Nat → Driver := fun _ =>
  ⟨some (lit "usb0"), 512, 4096, true, true, fun lba =>
    some (if lba = 0 ∨ lba = 2048 then oneEntry else .zero)⟩

theorem partition_scanned_as_disk :
    (scanAtBoot nestedDisk (registerDisks [0] .empty)).scanned =
      [.disk 0, .partition 0, .partition 1] ∧
    ((scanAtBoot nestedDisk (registerDisks [0] .empty)).registered.map fun r => (r.base, r.index, r.slot)) =
      [(.disk 0, 0, 0), (.partition 0, 0, 1)] ∧
    ¬OncePerEntry [0] (scanAtBoot nestedDisk (registerDisks [0] .empty)) := by
  have hscanned : (scanAtBoot nestedDisk (registerDisks [0] .empty)).scanned =
      [.disk 0, .partition 0, .partition 1] := by decide +kernel
  refine ⟨hscanned, by decide +kernel, fun honce => ?_⟩
  obtain ⟨d, -, hdisk⟩ := honce.scansDisks (.partition 0) (by rw [hscanned]; decide)
  cases hdisk

end Wirth.Kernel.Block

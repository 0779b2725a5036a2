import Wirth.Kernel.World
import Wirth.Kernel.Shell.Kept
import Wirth.Kernel.Storage.Walker
import Wirth.Toolchain.EfiImage

namespace Wirth.Kernel

open Wirth.Lib Wirth.Kernel.Fs Wirth.Kernel.Storage Wirth.Kernel.Shell
open Wirth.Toolchain.EfiImage (Image Protected kPartitionAlignmentSectors not_protected)

def sectorsFor (bytes : Nat) : Nat := (bytes + 511) / 512

def Op.sectors (fs : RamFs) : Op → Nat
  | .write data => sectorsFor data.length
  | .snapshot _ _ => sectorsFor (encodeFiles (snapshotFiles fs)).length
  | .install _ pkg => sectorsFor (encodeFiles pkg.files).length
  | .upgrade _ => (kPackages.map fun pkg => sectorsFor (encodeFiles pkg.files).length).sum
  | _ => 0

def World.Room (w : World) (op : Op) : Prop :=
  w.storage.sb.nextFreeLba + op.sectors w.fs ≤ kPartitionAlignmentSectors

-- The sectors before the first partition without the partition table.
def Clear (lba : Nat) : Prop := 0 < lba ∧ lba < kPartitionAlignmentSectors

-- What holds between the operations. The bound grows with the data.
structure Inside (bound : Nat) (st : StorageState) (fs : RamFs) : Prop where
  start : dataStartLba ≤ st.sb.nextFreeLba
  stop : st.sb.nextFreeLba ≤ bound
  files : fs.Good

section Storage

variable {st : StorageState}

theorem writeData_meets {start i left : Nat} {data : List UInt8} (hstart : 0 < start)
    (hstop : start + (i + left) ≤ kPartitionAlignmentSectors) :
    (writeData start i left data).Meets Clear fun _ => True := by
  unfold kPartitionAlignmentSectors at hstop
  induction left generalizing i data with
  | zero => trivial
  | succ left ih =>
    refine ⟨⟨?_, ?_⟩, fun ok => ?_⟩
    · rw [uint32_eq_self (by omega)]
      omega
    · grind [kPartitionAlignmentSectors, uint32_eq_self]
    · cases ok with
      | false => trivial
      | true => exact ih (by omega)

theorem storageWrite_meets {data : List UInt8} (hstart : dataStartLba ≤ st.sb.nextFreeLba)
    (hstop : st.sb.nextFreeLba + sectorsFor data.length ≤ kPartitionAlignmentSectors) :
    (storageWrite st (some data)).Meets Clear fun r =>
      dataStartLba ≤ r.1.sb.nextFreeLba ∧
        r.1.sb.nextFreeLba ≤ st.sb.nextFreeLba + sectorsFor data.length := by
  unfold kPartitionAlignmentSectors sectorsFor at hstop
  unfold dataStartLba at hstart
  have hsectors : sectorCount data.length = (data.length + 511) / 512 := by
    rw [sectorCount, uint32_eq_self (by omega)]
  have hnext : uint32 (st.sb.nextFreeLba + sectorCount data.length) =
      st.sb.nextFreeLba + sectorCount data.length := uint32_eq_self (by omega)
  unfold storageWrite dataStartLba sectorsFor
  simp only
  split_ifs with hempty
  · exact ⟨hstart, Nat.le_add_right _ _⟩
  refine (writeData_meets (by omega)
    (by unfold kPartitionAlignmentSectors; omega)).bind fun ok _ => ?_
  cases ok with
  | false => exact ⟨hstart, Nat.le_add_right _ _⟩
  | true =>
    refine ⟨⟨by decide, by decide⟩, fun ok => ?_⟩
    cases ok <;> exact ⟨by grind, by rw [hnext, hsectors]⟩

theorem storageAddIndexEntry_meets (name : Str) (startLba sectors : Nat) :
    (storageAddIndexEntry name startLba sectors).Meets Clear fun _ => True := by
  refine (Io.readSectors_meets indexLba 1).bind fun r _ => ?_
  simp only
  split
  · trivial
  · split_ifs
    · trivial
    · exact ⟨⟨by decide, by decide⟩, fun _ => trivial⟩

theorem storageInit_meets : (storageInit st true).Meets Clear fun st' =>
    dataStartLba ≤ st'.sb.nextFreeLba := by
  refine fun sector => ?_
  cases sector with
  | none => exact Nat.le_refl _
  | some sector =>
    change Io.Meets _ _ (if _ then _ else _)
    split_ifs with hfresh
    · exact ⟨⟨by decide, by decide⟩, fun _ => Nat.le_refl _⟩
    · rw [not_or] at hfresh
      exact Nat.le_of_not_lt hfresh.2

end Storage

section Operations

variable {st : StorageState} {fs : RamFs}

theorem storageSnapshotSave_meets {alloc : Allocator} {name : Option Str} (hfs : fs.Good)
    (hstart : dataStartLba ≤ st.sb.nextFreeLba)
    (hstop : st.sb.nextFreeLba + sectorsFor (encodeFiles (snapshotFiles fs)).length ≤
      kPartitionAlignmentSectors) :
    Program.Meets Clear (fun r => Inside (st.sb.nextFreeLba +
      sectorsFor (encodeFiles (snapshotFiles fs)).length) r.2.1 r.2.2)
      (storageSnapshotSave st alloc fs name) := by
  have hsame : Inside (st.sb.nextFreeLba + sectorsFor (encodeFiles (snapshotFiles fs)).length) st fs :=
    ⟨hstart, Nat.le_add_right _ _, hfs⟩
  have hlimit : (encodeFiles (snapshotFiles fs)).length < 2 ^ 32 := by
    unfold sectorsFor kPartitionAlignmentSectors at hstop
    omega
  cases name with
  | none => exact Program.meets_pure hsame
  | some name =>
    unfold storageSnapshotSave
    simp only
    split_ifs
    · exact Program.meets_pure hsame
    rw [walkerCompute_eq hfs, Program.ended_bind, uint32_eq_self hlimit]
    simp only
    by_cases hzero : (encodeFiles (snapshotFiles fs)).length = 0
    · rw [if_pos (Or.inr hzero)]
      exact Program.meets_pure hsame
    rw [if_neg (by rw [not_or]; exact ⟨by decide, hzero⟩)]
    cases hbuffer : alloc.buffer (encodeFiles (snapshotFiles fs)).length with
    | none => exact Program.meets_pure hsame
    | some payload =>
      have hlength := alloc.length_eq hbuffer
      have hfill := walkerFill_eq hfs hlimit hlength
      rw [hlength] at hfill
      simp only
      rw [hfill, Program.ended_bind]
      simp only
      rw [if_neg (by decide), List.take_of_length_le (Nat.le_refl _)]
      refine (Program.meets_device (storageWrite_meets hstart hstop)).bind fun r hr => ?_
      obtain ⟨st', handle⟩ := r
      cases handle with
      | none => exact Program.meets_pure ⟨hr.1, hr.2, hfs⟩
      | some h =>
        exact (Program.meets_device (storageAddIndexEntry_meets name h.startLba h.sectors)).bind
          fun ok _ => Program.meets_pure ⟨hr.1, hr.2, hfs⟩

theorem installPackage_meets {alloc : Nat → Allocator} {pkg : PackageDefinition} (hfs : fs.Good)
    (hstart : dataStartLba ≤ st.sb.nextFreeLba)
    (hstop : st.sb.nextFreeLba + sectorsFor (encodeFiles pkg.files).length ≤ kPartitionAlignmentSectors) :
    Program.Meets Clear (fun r => Inside (st.sb.nextFreeLba +
      sectorsFor (encodeFiles pkg.files).length) r.2.1 r.2.2) (installPackage st alloc fs pkg) := by
  have hlimit : (encodeFiles pkg.files).length < 2 ^ 32 := by
    unfold sectorsFor kPartitionAlignmentSectors at hstop
    omega
  have htotal : payloadTotal pkg.files = (encodeFiles pkg.files).length := by
    rw [payloadTotal_eq, uint32_eq_self hlimit]
  have hsame : ∀ {fs' : RamFs}, fs'.Good →
      Inside (st.sb.nextFreeLba + sectorsFor (encodeFiles pkg.files).length) st fs' :=
    fun h => ⟨hstart, Nat.le_add_right _ _, h⟩
  have hdirs := ensureDirs_good hfs [lit "/var", lit "/var/lib", lit "/var/lib/wirth", kPkgDbDir,
    kAptDir, kAptSourcesDir, lit "/usr", lit "/usr/share", lit "/usr/share/doc", kDocDir, lit "/opt",
    lit "/opt/demo"]
  have hthere := packageInstalled_good hdirs pkg
  unfold installPackage
  simp only
  split_ifs
  · exact Program.meets_pure (hsame hdirs)
  · exact Program.meets_pure (hsame hthere)
  refine (Program.meets_ended (Q := fun r => r.2.Good) fun r hr =>
    installPackageFiles_good hthere hr).bind fun r hr => ?_
  obtain ⟨ok, fs'⟩ := r
  split_ifs
  · exact Program.meets_pure (hsame (removePackageFiles_good hr pkg))
  cases hbuffer : (alloc pkg.files.length).buffer (payloadTotal pkg.files) with
  | none => exact Program.meets_pure (hsame (removePackageFiles_good hr pkg))
  | some payload =>
    have hlength := (alloc pkg.files.length).length_eq hbuffer
    have hfill := @fillPayload_eq pkg.files [] payload
      (by rw [List.length_nil, hlength, htotal]; omega) (by rw [hlength, htotal])
    rw [List.nil_append, List.nil_append, List.length_nil] at hfill
    simp only
    rw [hfill, Program.ended_bind]
    refine (Program.meets_device (storageWrite_meets hstart hstop)).bind fun r hstored => ?_
    obtain ⟨st', handle⟩ := r
    cases handle with
    | none => exact Program.meets_pure ⟨hstored.1, hstored.2, removePackageFiles_good hr pkg⟩
    | some h =>
      refine (Program.meets_device (storageAddIndexEntry_meets pkg.name h.startLba
        h.sectors)).bind fun ok _ => ?_
      cases ok with
      | false => exact Program.meets_pure ⟨hstored.1, hstored.2, removePackageFiles_good hr pkg⟩
      | true =>
        exact (Program.meets_ended (Q := fun r => r.2.Good) fun r hmarker =>
          writeMarker_good hr hmarker).bind fun r hmarker =>
            Program.meets_pure ⟨hstored.1, hstored.2, hmarker⟩

theorem upgradePackages_meets {alloc : Nat → Nat → Allocator} {k bound : Nat}
    {pkgs : List PackageDefinition} (hfs : fs.Good) (hstart : dataStartLba ≤ st.sb.nextFreeLba)
    (hstop : st.sb.nextFreeLba + (pkgs.map fun pkg => sectorsFor (encodeFiles pkg.files).length).sum ≤
      bound) (hbound : bound ≤ kPartitionAlignmentSectors) :
    Program.Meets Clear (fun r => Inside bound r.2.1 r.2.2) (upgradePackages st alloc fs k pkgs) := by
  induction pkgs generalizing st fs k with
  | nil => exact Program.meets_pure ⟨hstart, (Nat.le_add_right _ _).trans hstop, hfs⟩
  | cons pkg pkgs ih =>
    rw [List.map_cons, List.sum_cons] at hstop
    have hthere := packageInstalled_good hfs pkg
    rw [upgradePackages]
    simp only
    split_ifs
    · refine (installPackage_meets (removePackageFiles_good hthere pkg) hstart (by omega)).bind
        fun r hr => ?_
      refine (ih hr.files hr.start (by have := hr.stop; omega)).bind fun r' hr' => ?_
      grind [Program.meets_pure]
    · exact ih hthere hstart (by omega)

theorem boot_meets {init restore : Nat → Allocator} : Program.Meets Clear (fun r =>
    dataStartLba ≤ r.2.1.sb.nextFreeLba ∧ r.2.2.Good) (boot init restore) := by
  refine (Program.meets_device storageInit_meets).bind fun st hst => ?_
  refine (Program.meets_ended (Q := fun r => r.2.Good) fun r hr => init_good hr).bind fun r hr => ?_
  exact (storageRestorePackages_meets hr).bind fun fs hfs => Program.meets_pure ⟨hst, hfs⟩

theorem Op.program_meets {op : Op} (hfs : fs.Good) (hstart : dataStartLba ≤ st.sb.nextFreeLba)
    (hroom : st.sb.nextFreeLba + op.sectors fs ≤ kPartitionAlignmentSectors) :
    Program.Meets Clear (fun r => dataStartLba ≤ r.2.1.sb.nextFreeLba ∧ r.2.2.Good)
      (op.program st fs) := by
  have hinside : ∀ {bound : Nat} {p : Program (Bool × StorageState × RamFs)},
      p.Meets Clear (fun r => Inside bound r.2.1 r.2.2) →
      p.Meets Clear fun r => dataStartLba ≤ r.2.1.sb.nextFreeLba ∧ r.2.2.Good :=
    fun h => h.mono fun r hr => ⟨hr.start, hr.files⟩
  cases op with
  | write data =>
    exact (Program.meets_device (storageWrite_meets hstart hroom)).bind fun r hr =>
      Program.meets_pure ⟨hr.1, hfs⟩
  | snapshot alloc name => exact hinside (storageSnapshotSave_meets hfs hstart hroom)
  | install alloc pkg => exact hinside (installPackage_meets hfs hstart hroom)
  | remove pkg => exact Program.meets_pure ⟨hstart, removePackageFiles_good hfs pkg⟩
  | upgrade alloc => exact hinside (upgradePackages_meets hfs hstart hroom (Nat.le_refl _))
  | call c =>
    exact (Program.meets_ended (Q := fun r => r.2.Good) fun r hr => hfs.call hr).bind fun r hr =>
      Program.meets_pure ⟨hstart, hr⟩
  | reboot init restore => exact boot_meets

end Operations

theorem reached_inside {d : Disk} {w : World}
    (h : World.Reached (fun w _ op _ => w.Room op) d w) :
    dataStartLba ≤ w.storage.sb.nextFreeLba ∧ w.fs.Good := by
  induction h with
  | boot _ h _ => exact (boot_meets.exec _ _).2 _ h.returned
  | step _ h hroom ih => exact ((Op.program_meets ih.2 ih.1 hroom).exec _ _).2 _ h.returned

-- As long as the data fits before the first partition, nothing else is written, whatever fails and
-- however the operation ends.
theorem partitions_untouched {sizeMiB : Nat} {d : Disk} (himage : Image sizeMiB d)
    (failures : Failures) :
    (∀ init restore, ∀ v ∈ ((boot init restore).exec d failures).writes, ¬Protected (d 0) v.lba) ∧
    ∀ w op, World.Reached (fun w _ op _ => w.Room op) d w → w.Room op →
      ∀ v ∈ ((op.program w.storage w.fs).exec w.disk failures).writes, ¬Protected (d 0) v.lba := by
  refine ⟨fun init restore v hv => ?_, fun w op h hroom v hv => ?_⟩
  · have hclear := (boot_meets.exec d failures).1 v hv
    exact not_protected himage hclear.1 hclear.2
  · obtain ⟨hstart, hfs⟩ := reached_inside h
    have hclear := ((Op.program_meets hfs hstart hroom).exec w.disk failures).1 v hv
    exact not_protected himage hclear.1 hclear.2

def smallImage : Disk := fun lba =>
  if lba = 0 then Wirth.Toolchain.EfiImage.writeMbr
    ⟨2048, 65536, Wirth.Toolchain.EfiImage.kMbrPartitionTypeEfi, true⟩
    ⟨67584, 2048, Wirth.Toolchain.EfiImage.kMbrPartitionTypeLinux, false⟩
  else .zero

theorem smallImage_image : Image 34 smallImage := by
  refine ⟨⟨_, _, by decide +kernel, if_pos rfl⟩, fun lba hpos _ => ?_⟩
  exact if_neg (Nat.ne_of_gt hpos)

theorem smallImage_boots {allowed : World → Failures → Op → Bool → Prop}
    (hallowed : ∀ w ok, w.storage.sb.nextFreeLba = dataStartLba →
      allowed w .none (.reboot (fun _ => zeroed) fun _ => zeroed) ok) :
    ∃ w, World.Reached allowed smallImage w ∧ w.storage.sb.nextFreeLba = dataStartLba := by
  have hrun : (((boot (fun _ => zeroed) fun _ => zeroed).exec smallImage .none).result >>= fun r =>
      .returned r.2.1.sb.nextFreeLba) = .returned dataStartLba := by
    decide +kernel
  obtain ⟨⟨ok, st, fs⟩, hboot, hnext⟩ := Ended.bind_eq_returned.mp hrun
  have hnext : st.sb.nextFreeLba = dataStartLba := Ended.returned.inj hnext
  exact ⟨_, .boot rfl (World.steps_reboot (w := ⟨smallImage, st, fs⟩) hboot) (hallowed _ ok hnext), hnext⟩

theorem partitions_untouched_small : ∃ w : World, w.Room (.write [1]) ∧
    ∀ v ∈ (((Op.write [1]).program w.storage w.fs).exec w.disk .none).writes,
      ¬Protected (smallImage 0) v.lba := by
  have hroom : ∀ w : World, ∀ op : Op, op.sectors w.fs ≤ 1 →
      w.storage.sb.nextFreeLba = dataStartLba → w.Room op := by
    intro w op hop hnext
    rw [World.Room, hnext, dataStartLba, kPartitionAlignmentSectors]
    omega
  obtain ⟨w, hw, hnext⟩ := @smallImage_boots (fun w _ op _ => w.Room op) fun w _ hnext =>
    hroom w _ (Nat.zero_le _) hnext
  have hone := hroom w (.write [1]) (Nat.le_refl _) hnext
  exact ⟨w, hone, (partitions_untouched smallImage_image .none).2 w _ hw hone⟩

-- More than about a megabyte of data runs into the first partition.
theorem partition_overwritten : ∃ w v, World.Reached (fun _ _ _ _ => True) smallImage w ∧
    v ∈ (((Op.write (List.replicate (2038 * 512 + 1) 0)).program w.storage w.fs).exec w.disk
      .none).writes ∧ Protected (smallImage 0) v.lba := by
  obtain ⟨w, hw, hnext⟩ := @smallImage_boots (fun _ _ _ _ => True) fun _ _ _ => trivial
  have hdata : (List.replicate (2038 * 512 + 1) (0 : UInt8)) ≠ [] := by
    intro hempty
    have := congrArg List.length hempty
    rw [List.length_replicate, List.length_nil] at this
    omega
  have hsectors : sectorCount (List.replicate (2038 * 512 + 1) (0 : UInt8)).length = 2039 := by
    rw [List.length_replicate, sectorCount, uint32_eq_self (by omega)]
  have hexec := @exec_storageWrite w.disk [] w.storage (List.replicate (2038 * 512 + 1) 0) hdata
    (by rw [hsectors, hnext, dataStartLba]; omega)
  rw [hsectors, hnext] at hexec
  obtain ⟨v, hv, hlba⟩ := @exists_mem_dataWrites dataStartLba 2039
    (List.replicate (2038 * 512 + 1) 0) 2038 (by omega)
  refine ⟨w, v, hw, ?_, Or.inr ⟨(2048, 65536), by decide +kernel, ?_⟩⟩
  · rw [Op.write_writes, Failures.none, hexec]
    exact List.mem_append_left _ hv
  · rw [hlba, dataStartLba]
    exact ⟨by omega, by omega⟩

end Wirth.Kernel

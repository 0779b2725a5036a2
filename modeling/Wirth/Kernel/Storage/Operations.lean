import Wirth.Kernel.Storage.Index

namespace Wirth.Kernel.Storage

open Wirth.Lib

structure Superblock.WellFormed (sb : Superblock) : Prop where
  magic_lt : sb.magic < 2 ^ 32
  next_lt : sb.nextFreeLba < 2 ^ 32
  reserved_length : sb.reserved.length = 504

def Superblock.Formatted (sb : Superblock) : Prop :=
  sb.magic = magicNumber ∧ dataStartLba ≤ sb.nextFreeLba

theorem Superblock.ofSector_wellFormed (sector : Sector) : (ofSector sector).WellFormed :=
  ⟨at32_lt _ _, at32_lt _ _, by rw [ofSector, List.length_drop, sector.length_eq]⟩

theorem Superblock.fresh_wellFormed : Superblock.fresh.WellFormed :=
  ⟨by decide, by decide, List.length_replicate⟩

theorem Superblock.ofSector_sector {sb : Superblock} (h : sb.WellFormed) : ofSector sb.sector = sb := by
  have hbytes : sb.sector.bytes = le32 sb.magic ++ (le32 sb.nextFreeLba ++ sb.reserved) := by
    refine Sector.bytes_ofBytes_full ?_
    rw [List.length_append, List.length_append, h.reserved_length, le32_length, le32_length]
  have hmagic : at32 sb.sector.bytes 0 = sb.magic := by
    exact @at32_append [] _ _ h.magic_lt
  have hnext : at32 sb.sector.bytes 4 = sb.nextFreeLba := by
    exact @at32_append (le32 sb.magic) _ _ h.next_lt
  have hreserved : sb.sector.bytes.drop 8 = sb.reserved := by
    rw [hbytes, ← List.append_assoc, List.drop_left' (by simp)]
  rw [ofSector, hmagic, hnext, hreserved]

def padded (data : List UInt8) : List UInt8 :=
  data ++ List.replicate (512 * ((data.length + 511) / 512) - data.length) 0

theorem sectorCount_eq {data : List UInt8} (h : data.length ≤ 2 ^ 32 - 512) :
    sectorCount data.length = (data.length + 511) / 512 := by
  rw [sectorCount, uint32_eq_self (by omega)]

def dataWrites : Nat → Nat → List UInt8 → List Write
  | _, 0, _ => []
  | lba, left + 1, data => ⟨lba, .ofBytes data⟩ :: dataWrites (lba + 1) left (data.drop 512)

theorem dataWrites_lba {lba count : Nat} {data : List UInt8} :
    ∀ w ∈ dataWrites lba count data, lba ≤ w.lba ∧ w.lba < lba + count := by
  induction count generalizing lba data with
  | zero => exact fun w hw => absurd hw List.not_mem_nil
  | succ count ih =>
    intro w hw
    rcases List.mem_cons.mp hw with rfl | hw
    · exact ⟨Nat.le_refl _, by dsimp only; omega⟩
    · have := ih w hw
      omega

theorem exists_mem_dataWrites {lba count : Nat} {data : List UInt8} {i : Nat} (h : i < count) :
    ∃ w ∈ dataWrites lba count data, w.lba = lba + i := by
  induction count generalizing lba data i with
  | zero => omega
  | succ count ih =>
    cases i with
    | zero => exact ⟨_, List.mem_cons_self, rfl⟩
    | succ i =>
      obtain ⟨w, hw, hlba⟩ := @ih (lba + 1) (data.drop 512) i (by omega)
      exact ⟨w, List.mem_cons_of_mem _ hw, by omega⟩

theorem bytes_dataWrites {count lba : Nat} {data : List UInt8} {d : Disk}
    (h : data.length ≤ 512 * count) : (d.apply (dataWrites lba count data)).bytes lba count =
      data ++ List.replicate (512 * count - data.length) 0 := by
  induction count generalizing lba data d with
  | zero =>
    have hempty : data = [] := List.length_eq_zero_iff.mp (by omega)
    rw [hempty]
    rfl
  | succ count ih =>
    have hfirst : d.apply (dataWrites lba (count + 1) data) lba = .ofBytes data := by
      rw [dataWrites, Disk.apply, Disk.apply_other fun w hw => by
        have := dataWrites_lba w hw
        omega]
      exact Function.update_self _ _ _
    have hrest := @ih (lba + 1) (data.drop 512) (Function.update d lba (.ofBytes data))
      (by rw [List.length_drop]; omega)
    rw [Disk.bytes, hfirst]
    change _ ++ Disk.bytes (Disk.apply (Function.update d lba (.ofBytes data))
      (dataWrites (lba + 1) count (data.drop 512))) (lba + 1) count = _
    rw [hrest, Sector.bytes_ofBytes]
    by_cases hlong : 512 ≤ data.length
    · rw [Nat.sub_eq_zero_of_le hlong, List.replicate_zero, List.append_nil, ← List.append_assoc,
        List.take_append_drop, List.length_drop,
        show 512 * count - (data.length - 512) = 512 * (count + 1) - data.length by omega]
    · rw [List.take_of_length_le (by omega), List.drop_of_length_le (by omega), List.nil_append,
        List.append_assoc, List.replicate_append_replicate, List.length_nil, Nat.sub_zero,
        show 512 - data.length + 512 * count = 512 * (count + 1) - data.length by omega]

section Exec

variable {d : Disk} {rs : List Bool}

theorem exec_writeSector (lba : Nat) (sector : Sector) :
    (Io.writeSector lba sector).exec d ⟨rs, []⟩ = ⟨true, [⟨lba, sector⟩], ⟨rs, []⟩⟩ := rfl

theorem exec_writeData {start i count : Nat} {data : List UInt8} (h : start + i + count ≤ 2 ^ 32) :
    (writeData start i count data).exec d ⟨rs, []⟩ =
      ⟨true, dataWrites (start + i) count data, ⟨rs, []⟩⟩ := by
  induction count generalizing i data d with
  | zero => rfl
  | succ count ih =>
    rw [writeData, Io.exec_bind, exec_writeSector, uint32_eq_self (by omega)]
    simp only [Bool.true_eq_false, if_false]
    rw [ih (by omega)]
    rfl

theorem exec_storageWrite {st : StorageState} {data : List UInt8} (hdata : data ≠ [])
    (h : st.sb.nextFreeLba + sectorCount data.length < 2 ^ 32) :
    (storageWrite st (some data)).exec d ⟨rs, []⟩ =
      let sb := { st.sb with nextFreeLba := st.sb.nextFreeLba + sectorCount data.length }
      ⟨({ st with sb := sb }, some ⟨st.sb.nextFreeLba, sectorCount data.length⟩),
        dataWrites st.sb.nextFreeLba (sectorCount data.length) data ++ [⟨superblockLba, sb.sector⟩],
        ⟨rs, []⟩⟩ := by
  simp only [storageWrite]
  rw [if_neg hdata, Io.exec_bind, exec_writeData (by omega)]
  simp only [Bool.true_eq_false, if_false, Nat.add_zero]
  rw [Io.exec_bind, exec_writeSector, uint32_eq_self h]
  rfl

theorem exec_storageInit {st : StorageState} {o : Outcome StorageState}
    (h : (storageInit st true).exec d ⟨rs, []⟩ = o) :
    (rs.headD false = true ∧ o.result.sb.magic ≠ magicNumber ∧ o.writes = []) ∨
      (rs.headD false = false ∧ (Superblock.ofSector (d superblockLba)).Formatted ∧
        o.result.sb = .ofSector (d superblockLba) ∧ o.writes = []) ∨
      (rs.headD false = false ∧ ¬(Superblock.ofSector (d superblockLba)).Formatted ∧
        o.result.sb = .fresh ∧ o.writes = [⟨superblockLba, Superblock.fresh.sector⟩]) := by
  subst h
  rw [storageInit, if_neg (by decide), Io.exec_bind]
  by_cases hread : rs.headD false = true
  · refine Or.inl ⟨hread, ?_⟩
    simp only [Io.readSector, Io.exec, hread, if_true]
    exact ⟨by decide, rfl⟩
  refine Or.inr ?_
  simp only [Io.readSector, Io.exec, hread, Bool.false_eq_true, if_false]
  have hsame : ((Superblock.ofSector (d superblockLba)).magic ≠ magicNumber ∨
      (Superblock.ofSector (d superblockLba)).nextFreeLba < dataStartLba) ↔
      ¬(Superblock.ofSector (d superblockLba)).Formatted := by
    rw [Superblock.Formatted, not_and_or, Nat.not_le]
  by_cases hformat : (Superblock.ofSector (d superblockLba)).Formatted
  · rw [Disk.apply_nil, if_neg (fun hbad => hsame.mp hbad hformat)]
    exact Or.inl ⟨by simp, hformat, rfl, rfl⟩
  · rw [Disk.apply_nil, if_pos (hsame.mpr hformat), Io.exec_bind, exec_writeSector]
    exact Or.inr ⟨by simp, hformat, rfl, rfl⟩

theorem exec_readIndex : (storageReadRaw indexLba 1).exec d ⟨rs, []⟩ =
    ⟨if rs.headD false then none else some (d indexLba).bytes, [], ⟨rs.tail, []⟩⟩ := by
  rw [storageReadRaw, Io.readSectors, Io.exec_bind]
  by_cases hread : rs.headD false = true
  · simp only [Io.readSector, Io.exec, hread, if_true, List.append_nil]
  · simp only [Io.readSector, Io.exec, hread, Bool.false_eq_true, if_false, Io.readSectors, Io.done_bind,
      List.append_nil]

theorem exec_storageAddIndexEntry {es : List Entry} {e : Entry} {o : Outcome Bool}
    (h : Holds (d indexLba) es) (hread : rs.headD false = false ∨ es = [])
    (hbounded : e.startLba < 2 ^ 32 ∧ e.sectors < 2 ^ 32)
    (ho : (storageAddIndexEntry e.name e.startLba e.sectors).exec d ⟨rs, []⟩ = o) :
    (o.result = false ∧ o.writes = [] ∧
        512 < 4 + (encodeEntries es).length + (12 + e.name.length)) ∨
      (o.result = true ∧ ∃ sector, o.writes = [⟨indexLba, sector⟩] ∧ Holds sector (es ++ [e])) := by
  obtain ⟨sector, hindex, hbytes⟩ : ∃ sector, Holds sector es ∧
      (if rs.headD false then none else some (d indexLba).bytes).getD (List.replicate 512 0) =
        sector.bytes := by
    rcases hread with hread | rfl
    · rw [hread]
      exact ⟨d indexLba, h, rfl⟩
    · by_cases hread : rs.headD false = true
      · rw [if_pos hread]
        exact ⟨.zero, holds_zero, rfl⟩
      grind
  subst ho
  rw [storageAddIndexEntry, Io.exec_bind, exec_readIndex]
  simp only [hbytes, skipEntries_eq, hindex.readEntries, Option.map_some]
  by_cases hfits : 512 < 4 + (encodeEntries es).length + (12 + e.name.length)
  · rw [if_pos hfits]
    exact Or.inl ⟨rfl, rfl, hfits⟩
  · rw [if_neg hfits]
    exact Or.inr ⟨rfl, _, rfl, hindex.append hbounded (by omega)⟩

end Exec

end Wirth.Kernel.Storage

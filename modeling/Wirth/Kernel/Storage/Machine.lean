import Wirth.Kernel.Storage.Operations

namespace Wirth.Kernel.Storage

open Wirth.Lib

-- Data for which an index entry was asked for, with the handle that its write returned.
structure Stored where
  name : Str
  handle : StorageHandle
  data : List UInt8
  deriving DecidableEq

def Stored.entry (r : Stored) : Entry := ⟨r.name, r.handle.startLba, r.handle.sectors⟩

def superblock (d : Disk) : Superblock := .ofSector (d superblockLba)

-- The data lies below the mark of the superblock and can be read there.
structure Placed (d : Disk) (handle : StorageHandle) (data : List UInt8) : Prop where
  start_le : dataStartLba ≤ handle.startLba
  nonempty : 0 < handle.sectors
  stop_le : handle.startLba + handle.sectors ≤ (superblock d).nextFreeLba
  contents : d.bytes handle.startLba handle.sectors = padded data

-- The index of the disk has these records, one behind the other.
structure Consistent (d : Disk) (records : List Stored) : Prop where
  index : Holds (d indexLba) (records.map Stored.entry)
  formatted : records ≠ [] → (superblock d).Formatted
  ordered : records.Pairwise fun r s => r.handle.startLba + r.handle.sectors ≤ s.handle.startLba
  placed : ∀ r ∈ records, Placed d r.handle r.data

variable {d d' : Disk} {records : List Stored}

theorem Placed.frame {handle : StorageHandle} {data : List UInt8}
    (h : Placed d handle data) (hmark : (superblock d).nextFreeLba ≤ (superblock d').nextFreeLba)
    (hsame : ∀ lba, dataStartLba ≤ lba → lba < (superblock d).nextFreeLba → d' lba = d lba) :
    Placed d' handle data := by
  have hstart := h.start_le
  have hstop := h.stop_le
  refine ⟨hstart, h.nonempty, hstop.trans hmark, ?_⟩
  rw [← h.contents]
  grind [Disk.bytes_congr]

theorem Consistent.frame (h : Consistent d records)
    (hindex : d' indexLba = d indexLba)
    (hformat : (superblock d).Formatted → (superblock d').Formatted)
    (hmark : (superblock d).nextFreeLba ≤ (superblock d').nextFreeLba)
    (hsame : ∀ lba, dataStartLba ≤ lba → lba < (superblock d).nextFreeLba → d' lba = d lba) :
    Consistent d' records :=
  ⟨by rw [hindex]; exact h.index, fun hne => hformat (h.formatted hne), h.ordered,
    fun r hr => (h.placed r hr).frame hmark hsame⟩

theorem Consistent.append {r : Stored}
    (h : Consistent d records) (hformat : (superblock d).Formatted)
    (hplaced : Placed d r.handle r.data)
    (hafter : ∀ s ∈ records, s.handle.startLba + s.handle.sectors ≤ r.handle.startLba)
    (hindex : Holds (d' indexLba) ((records ++ [r]).map Stored.entry))
    (hsame : ∀ lba, lba ≠ indexLba → d' lba = d lba) : Consistent d' (records ++ [r]) := by
  have hsuper : superblock d' = superblock d := by
    rw [superblock, hsame superblockLba (by decide), superblock]
  have hdata : ∀ lba, dataStartLba ≤ lba → lba < (superblock d).nextFreeLba → d' lba = d lba := by
    intro lba hlba _
    refine hsame lba ?_
    unfold dataStartLba at hlba
    unfold indexLba
    omega
  refine ⟨hindex, fun _ => by rw [hsuper]; exact hformat, ?_, fun s hs => ?_⟩
  · refine List.pairwise_append.mpr ⟨h.ordered, List.pairwise_singleton _ _, fun s hs t ht => ?_⟩
    grind
  · rcases List.mem_append.mp hs with hs | hs
    · exact (h.placed s hs).frame (by rw [hsuper]) hdata
    · rw [List.mem_singleton.mp hs]
      exact hplaced.frame (by rw [hsuper]) hdata

-- The machine with its disk. Without memory it is off. What has been written and not yet been
-- entered into the index is pending, and what has been submitted to the index is kept in order.
structure Machine where
  disk : Disk
  memory : Option StorageState
  pending : Option (StorageHandle × List UInt8)
  submitted : List Stored

inductive Act where
  | boot
  | write (data : List UInt8)
  | index (name : Str)

-- What an act writes and the machine after it, where the act is possible.
def Machine.act (m : Machine) (failures : Failures) : Act → Option (List Write × Machine)
  | .boot =>
      let o := (storageInit (m.memory.getD .initial) true).exec m.disk failures
      some (o.writes, { m with disk := m.disk.apply o.writes, memory := some o.result })
  | .write data => m.memory.map fun st =>
      let o := (storageWrite st (some data)).exec m.disk failures
      (o.writes, { m with
        disk := m.disk.apply o.writes
        memory := some o.result.1
        pending := o.result.2.map fun handle => (handle, data) })
  | .index name => m.pending.map fun p =>
      let o := (storageAddIndexEntry name p.1.startLba p.1.sectors).exec m.disk failures
      (o.writes, { m with
        disk := m.disk.apply o.writes
        pending := none
        submitted := m.submitted ++ [⟨name, p.1, p.2⟩] })

-- Sizes that the code can count, on a disk that all of them fit on.
def Machine.Fits (m : Machine) : Act → Prop
  | .write data => data.length ≤ 2 ^ 32 - 512 ∧ ∀ st, m.memory = some st →
      st.sb.nextFreeLba + sectorCount data.length < 2 ^ 32
  | _ => True

-- The superblock that a write goes by was read, and so was the index that an entry is added to
-- unless it is empty.
def Machine.Informed (m : Machine) (failures : Failures) : Act → Prop
  | .boot => True
  | .write _ => ∀ st, m.memory = some st → st.sb.magic = magicNumber
  | .index _ => failures.reads.headD false = false ∨ at32 (m.disk indexLba).bytes 0 = 0

structure Machine.Sound (m : Machine) (records : List Stored) : Prop where
  listed : records.Sublist m.submitted
  disk : Consistent m.disk records
  memory : ∀ st, m.memory = some st → st.sb.magic = magicNumber →
    st.sb = superblock m.disk ∧ (superblock m.disk).Formatted
  pending : ∀ handle data, m.pending = some (handle, data) → (superblock m.disk).Formatted ∧
    Placed m.disk handle data ∧
    ∀ r ∈ records, r.handle.startLba + r.handle.sectors ≤ handle.startLba

structure Keeps (m m' : Machine) (ws : List Write) (records : List Stored) : Prop where
  sound : ∃ more, records <+: more ∧ m'.Sound more
  crash : m.disk.Throughout (fun d => ∃ kept, kept.Sublist m'.submitted ∧ Consistent d kept) ws
  apart : ∀ r ∈ records, ∀ w ∈ ws,
    w.lba < r.handle.startLba ∨ r.handle.startLba + r.handle.sectors ≤ w.lba

theorem apply_superblock (d : Disk) (sb : Superblock) (h : sb.WellFormed) :
    superblock (d.apply [⟨superblockLba, sb.sector⟩]) = sb := by
  rw [superblock, Disk.apply, Disk.apply, Function.update_self, Superblock.ofSector_sector h]

theorem Consistent.write {d : Disk} {records : List Stored} {data : List UInt8}
    (h : Consistent d records) (hformat : (superblock d).Formatted) (hdata : data ≠ [])
    (hlimit : (superblock d).nextFreeLba + (data.length + 511) / 512 < 2 ^ 32) :
    let sb := { superblock d with
      nextFreeLba := (superblock d).nextFreeLba + (data.length + 511) / 512 }
    let ws := dataWrites (superblock d).nextFreeLba ((data.length + 511) / 512) data ++
      [⟨superblockLba, sb.sector⟩]
    d.Throughout (Consistent · records) ws ∧ superblock (d.apply ws) = sb ∧
      Placed (d.apply ws) ⟨(superblock d).nextFreeLba, (data.length + 511) / 512⟩ data := by
  intro sb ws
  have hstart := hformat.2
  have hpositive := List.length_pos_iff.mpr hdata
  have hwell : sb.WellFormed :=
    ⟨(Superblock.ofSector_wellFormed _).magic_lt, hlimit, (Superblock.ofSector_wellFormed _).reserved_length⟩
  obtain ⟨dws, hdws⟩ : ∃ dws, dws = dataWrites (superblock d).nextFreeLba
    ((data.length + 511) / 512) data := ⟨_, rfl⟩
  have hws : ws = dws ++ [⟨superblockLba, sb.sector⟩] := by rw [hdws]
  have hlbas : ∀ w ∈ dws, (superblock d).nextFreeLba ≤ w.lba := by
    intro w hw
    rw [hdws] at hw
    exact (dataWrites_lba w hw).1
  -- While the data is written, nothing below the mark changes.
  have hdata : d.Throughout (Consistent · records) dws := by
    refine Disk.throughout_of_frame hlbas fun d' hsame => ?_
    have hlow : ∀ lba, lba < (superblock d).nextFreeLba → d' lba = d lba :=
      fun lba hlba => hsame lba (Nat.not_le.mpr hlba)
    have hsuper : superblock d' = superblock d := by
      rw [superblock, hlow superblockLba (Nat.lt_of_lt_of_le (by decide) hstart), superblock]
    exact h.frame (hlow indexLba (Nat.lt_of_lt_of_le (by decide) hstart)) (by rw [hsuper]; exact id)
      (by rw [hsuper]) fun lba _ hlba => hlow lba hlba
  have hmark : superblock (d.apply dws) = superblock d := by
    rw [superblock, Disk.apply_other fun w hw => ?_, superblock]
    have := hlbas w hw
    unfold dataStartLba at hstart
    unfold superblockLba
    omega
  have hsuper : superblock (d.apply ws) = sb := by
    rw [hws, Disk.apply_append, apply_superblock _ _ hwell]
  have hother : ∀ lba, lba ≠ superblockLba → d.apply ws lba = d.apply dws lba := by
    intro lba hlba
    rw [hws, Disk.apply_append]
    refine Disk.apply_other fun w hw => ?_
    rw [List.mem_singleton.mp hw]
    exact hlba.symm
  have hlast : Consistent (d.apply ws) records := by
    refine hdata.last.frame (hother indexLba (by decide)) ?_ ?_ fun lba hlba _ => hother lba ?_
    · rw [hsuper]
      exact fun _ => ⟨hformat.1, hstart.trans (Nat.le_add_right _ _)⟩
    · grind
    · grind [dataStartLba, superblockLba]
  refine ⟨?_, hsuper, hstart, ?_, ?_, ?_⟩
  · have hstep : (d.apply dws).Throughout (Consistent · records) [⟨superblockLba, sb.sector⟩] := by
      refine Disk.throughout_cons hdata.last (Disk.throughout_nil ?_)
      rw [hws, Disk.apply_append] at hlast
      exact hlast
    grind [Disk.throughout_append]
  · dsimp only
    omega
  · rw [hsuper]
  · have hsame : (d.apply ws).bytes (superblock d).nextFreeLba ((data.length + 511) / 512) =
        (d.apply dws).bytes (superblock d).nextFreeLba ((data.length + 511) / 512) := by
      refine Disk.bytes_congr fun i hi _ => hother i ?_
      unfold dataStartLba at hstart
      unfold superblockLba
      omega
    grind [bytes_dataWrites, padded]

section Acts

variable {m m' : Machine} {rs : List Bool} {ws : List Write} {records : List Stored}

theorem Machine.boot_keeps (h : m.Sound records)
    (hact : m.act ⟨rs, []⟩ .boot = some (ws, m')) : Keeps m m' ws records := by
  obtain ⟨rfl, rfl⟩ := hact
  obtain ⟨o, ho⟩ : ∃ o, (storageInit (m.memory.getD .initial) true).exec m.disk ⟨rs, []⟩ = o := ⟨_, rfl⟩
  rw [ho]
  have hwaits : o.writes = [] → (∀ st, some o.result = some st → st.sb.magic = magicNumber →
      st.sb = superblock m.disk ∧ (superblock m.disk).Formatted) →
      Keeps m { m with disk := m.disk.apply o.writes, memory := some o.result } o.writes records := by
    intro hnone hmemory
    rw [hnone]
    refine ⟨⟨records, List.prefix_refl _, h.listed, h.disk, hmemory, h.pending⟩,
      Disk.throughout_nil ⟨records, h.listed, h.disk⟩, fun r _ w hw => absurd hw List.not_mem_nil⟩
  rcases exec_storageInit ho with ⟨_, hmagic, hnone⟩ | ⟨_, hformat, hsb, hnone⟩ | ⟨_, hformat, hsb, hws⟩
  · grind
  · refine hwaits hnone fun st hst _ => ?_
    cases hst
    exact ⟨hsb, hformat⟩
  · -- Only an empty index goes with a superblock that is not sound.
    have hempty : records = [] := by
      by_contra hne
      exact hformat (h.disk.formatted hne)
    subst hempty
    have hsuper : superblock (m.disk.apply o.writes) = .fresh := by
      rw [hws, apply_superblock _ _ Superblock.fresh_wellFormed]
    have hdisk : Consistent (m.disk.apply o.writes) [] := by
      refine ⟨?_, fun hne => absurd rfl hne, List.Pairwise.nil, fun r hr => absurd hr List.not_mem_nil⟩
      rw [hws, Disk.apply_other fun w hw => by
        rw [List.mem_singleton.mp hw]
        decide]
      exact h.disk.index
    refine ⟨⟨[], List.prefix_refl _, h.listed, hdisk, ?_, ?_⟩, ?_, fun r hr => absurd hr List.not_mem_nil⟩
    · intro st hst _
      cases hst
      rw [hsuper]
      exact ⟨hsb, rfl, le_refl _⟩
    · intro handle data hpending
      exact absurd (h.pending handle data hpending).1 hformat
    · rw [hws]
      rw [hws] at hdisk
      exact Disk.throughout_cons ⟨[], h.listed, h.disk⟩ (Disk.throughout_nil ⟨[], h.listed, hdisk⟩)

theorem Machine.index_keeps {name : Str} (h : m.Sound records)
    (hinformed : m.Informed ⟨rs, []⟩ (.index name))
    (hact : m.act ⟨rs, []⟩ (.index name) = some (ws, m')) : Keeps m m' ws records := by
  simp only [act, Option.map_eq_some_iff, Prod.mk.injEq] at hact
  obtain ⟨⟨handle, data⟩, hpending, rfl, rfl⟩ := hact
  obtain ⟨hformat, hplaced, hafter⟩ := h.pending handle data hpending
  obtain ⟨o, ho⟩ : ∃ o, (storageAddIndexEntry name handle.startLba handle.sectors).exec m.disk
    ⟨rs, []⟩ = o := ⟨_, rfl⟩
  simp only [ho]
  have hmark := (Superblock.ofSector_wellFormed (m.disk superblockLba)).next_lt
  have hstop := hplaced.stop_le
  unfold superblock at hstop
  have hread : rs.headD false = false ∨ records.map Stored.entry = [] := by
    refine hinformed.imp_right fun hcount => ?_
    have hlen := h.disk.index.count
    rw [hcount] at hlen
    exact List.length_eq_zero_iff.mp hlen.symm
  have hlisted : records.Sublist (m.submitted ++ [⟨name, handle, data⟩]) :=
    h.listed.trans (List.sublist_append_left _ _)
  have hbounded : handle.startLba < 2 ^ 32 ∧ handle.sectors < 2 ^ 32 := ⟨by omega, by omega⟩
  rcases exec_storageAddIndexEntry (e := Entry.mk name handle.startLba handle.sectors) h.disk.index
    hread hbounded ho with ⟨_, hnone, _⟩ | ⟨_, sector, hws, hsector⟩
  · rw [hnone]
    exact ⟨⟨records, List.prefix_refl _, hlisted, h.disk, h.memory, fun _ _ hp => by cases hp⟩,
      Disk.throughout_nil ⟨records, hlisted, h.disk⟩, fun r _ w hw => absurd hw List.not_mem_nil⟩
  · have hmore : (records ++ [Stored.mk name handle data]).Sublist
        (m.submitted ++ [Stored.mk name handle data]) := h.listed.append (List.Sublist.refl _)
    have hother : ∀ lba, lba ≠ indexLba → m.disk.apply o.writes lba = m.disk lba := by
      intro lba hlba
      rw [hws]
      refine Disk.apply_other fun w hw => ?_
      rw [List.mem_singleton.mp hw]
      exact hlba.symm
    have hdisk : Consistent (m.disk.apply o.writes) (records ++ [⟨name, handle, data⟩]) := by
      refine h.disk.append hformat hplaced hafter ?_ hother
      rw [hws, Disk.apply, Disk.apply, Function.update_self, List.map_append]
      exact hsector
    have hsuper : superblock (m.disk.apply o.writes) = superblock m.disk := by
      rw [superblock, hother superblockLba (by decide), superblock]
    refine ⟨⟨_, List.prefix_append _ _, hmore, hdisk, ?_, fun _ _ hp => by cases hp⟩, ?_, ?_⟩
    · rw [hsuper]
      exact h.memory
    · rw [hws]
      rw [hws] at hdisk
      exact Disk.throughout_cons ⟨records, hlisted, h.disk⟩ (Disk.throughout_nil ⟨_, hmore, hdisk⟩)
    · intro r hr w hw
      have hstart := (h.disk.placed r hr).start_le
      grind [dataStartLba, indexLba]

theorem Machine.write_keeps {data : List UInt8} (h : m.Sound records) (hfits : m.Fits (.write data))
    (hinformed : m.Informed ⟨rs, []⟩ (.write data))
    (hact : m.act ⟨rs, []⟩ (.write data) = some (ws, m')) : Keeps m m' ws records := by
  simp only [act, Option.map_eq_some_iff, Prod.mk.injEq] at hact
  obtain ⟨st, hst, rfl, rfl⟩ := hact
  obtain ⟨hsb, hformat⟩ := h.memory st hst (hinformed st hst)
  by_cases hdata : data = []
  · have hnone : (storageWrite st (some data)).exec m.disk ⟨rs, []⟩ = ⟨(st, none), [], ⟨rs, []⟩⟩ := by
      rw [storageWrite, if_pos hdata, Io.exec_done]
    rw [hnone]
    exact ⟨⟨records, List.prefix_refl _, h.listed, h.disk, by rw [← hst]; exact h.memory,
      fun _ _ hp => by cases hp⟩, Disk.throughout_nil ⟨records, h.listed, h.disk⟩,
      fun r _ w hw => absurd hw List.not_mem_nil⟩
  have hlimit := hfits.2 st hst
  rw [exec_storageWrite hdata hlimit, hsb, sectorCount_eq hfits.1]
  rw [hsb, sectorCount_eq hfits.1] at hlimit
  obtain ⟨hcrash, hsuper, hplaced⟩ := Consistent.write h.disk hformat hdata hlimit
  refine ⟨⟨records, List.prefix_refl _, h.listed, hcrash.last, ?_, ?_⟩,
    fun k => ⟨records, h.listed, hcrash k⟩, ?_⟩
  · intro st' hst' _
    cases hst'
    rw [hsuper]
    exact ⟨rfl, hformat.1, hformat.2.trans (Nat.le_add_right _ _)⟩
  · intro handle bytes hpending
    cases hpending
    rw [hsuper]
    exact ⟨⟨hformat.1, hformat.2.trans (Nat.le_add_right _ _)⟩, hplaced,
      fun r hr => (h.disk.placed r hr).stop_le⟩
  · intro r hr w hw
    have hstart := (h.disk.placed r hr).start_le
    have hstop := (h.disk.placed r hr).stop_le
    rcases List.mem_append.mp hw with hw | hw
    · have := dataWrites_lba w hw
      omega
    grind [dataStartLba, superblockLba]

theorem Machine.act_keeps {a : Act} (h : m.Sound records) (hfits : m.Fits a)
    (hinformed : m.Informed ⟨rs, []⟩ a) (hact : m.act ⟨rs, []⟩ a = some (ws, m')) :
    Keeps m m' ws records := by
  cases a with
  | boot => exact boot_keeps h hact
  | write data => exact write_keeps h hfits hinformed hact
  | index name => exact index_keeps h hinformed hact

end Acts

def Machine.fresh : Machine := ⟨fun _ => .zero, none, none, []⟩

theorem Machine.fresh_sound : Machine.fresh.Sound [] :=
  ⟨List.nil_sublist _, ⟨holds_zero, fun hne => absurd rfl hne, List.Pairwise.nil,
    fun r hr => absurd hr List.not_mem_nil⟩, fun st hst => (by cases hst), fun _ _ hp => (by cases hp)⟩

end Wirth.Kernel.Storage

import Wirth.Kernel.Storage.Machine

namespace Wirth.Kernel.Storage

open Wirth.Lib

-- The states between boots, writes and index entries on a disk without failures. The power may
-- go off after any of the sector writes.
inductive Machine.Reachable : Machine → Prop
  | fresh : Reachable .fresh
  | act {m m' : Machine} {a : Act} {ws : List Write} (hm : Reachable m) (hfits : m.Fits a)
      (hact : m.act .none a = some (ws, m')) : Reachable m'
  | crash {m m' : Machine} {a : Act} {ws : List Write} (hm : Reachable m) (hfits : m.Fits a)
      (hact : m.act .none a = some (ws, m')) (k : Nat) :
      Reachable ⟨m.disk.apply (ws.take k), none, none, m'.submitted⟩

def Machine.Trusting (m : Machine) : Prop := ∀ st, m.memory = some st → st.sb.magic = magicNumber

theorem Machine.act_trusting {m m' : Machine} {a : Act} {ws : List Write} (h : m.Trusting)
    (hfits : m.Fits a) (hact : m.act .none a = some (ws, m')) : m'.Trusting := by
  intro st' hst'
  cases a with
  | boot =>
    obtain ⟨_, rfl⟩ := hact
    cases hst'
    rcases @exec_storageInit m.disk [] _ _ rfl with
      ⟨hread, _⟩ | ⟨_, hformat, hsb, _⟩ | ⟨_, _, hsb, _⟩
    · cases hread
    · rw [Failures.none, hsb]
      exact hformat.1
    · rw [Failures.none, hsb]
      rfl
  | write data =>
    simp only [act, Option.map_eq_some_iff, Prod.mk.injEq] at hact
    obtain ⟨st, hst, _, rfl⟩ := hact
    cases hst'
    by_cases hdata : data = []
    · simp only [storageWrite, if_pos hdata, Io.exec_done]
      exact h st hst
    · rw [Failures.none, exec_storageWrite hdata (hfits.2 st hst)]
      exact h st hst
  | index name =>
    simp only [act, Option.map_eq_some_iff, Prod.mk.injEq] at hact
    obtain ⟨p, _, _, rfl⟩ := hact
    exact h st' hst'

theorem Machine.Trusting.informed {m : Machine} (h : m.Trusting) (a : Act) : m.Informed .none a := by
  cases a with
  | boot => trivial
  | write data => exact h
  | index name => exact Or.inl rfl

theorem Machine.Reachable.sound {m : Machine} (h : m.Reachable) :
    m.Trusting ∧ ∃ records, m.Sound records := by
  induction h with
  | fresh => exact ⟨fun st hst => (by cases hst), [], fresh_sound⟩
  | @act m m' a ws _ hfits hact ih =>
    obtain ⟨htrust, records, hsound⟩ := ih
    obtain ⟨more, _, hmore⟩ := (act_keeps hsound hfits (htrust.informed a) hact).sound
    grind [act_trusting]
  | @crash m m' a ws _ hfits hact k ih =>
    obtain ⟨htrust, records, hsound⟩ := ih
    obtain ⟨kept, hlisted, hdisk⟩ := (act_keeps hsound hfits (htrust.informed a) hact).crash k
    exact ⟨fun st hst => (by cases hst), kept, hlisted, hdisk, fun st hst => (by cases hst),
      fun _ _ hp => (by cases hp)⟩

theorem Placed.storageRead {d : Disk} {handle : StorageHandle} {data : List UInt8}
    (h : Placed d handle data) : ((storageRead handle).exec d .none).result = some (padded data) := by
  have hnonempty := h.nonempty
  rw [Storage.storageRead, if_neg (by omega), Io.exec_readSectors, h.contents]

-- Whenever the power fails, the index on the disk lists data that was written for it. The sectors
-- of different entries are apart and below the mark, and hold the data filled up with zeros.
theorem reachable_index {m : Machine} (h : m.Reachable) : ∃ records : List Stored,
    records.Sublist m.submitted ∧
      indexEntries (m.disk indexLba) = some (records.map Stored.entry) ∧
      (records.Pairwise fun r s => r.handle.startLba + r.handle.sectors ≤ s.handle.startLba) ∧
      ∀ r ∈ records, dataStartLba ≤ r.handle.startLba ∧
        r.handle.startLba + r.handle.sectors ≤ (superblock m.disk).nextFreeLba ∧
        ((storageRead r.handle).exec m.disk .none).result = some (padded r.data) := by
  obtain ⟨_, records, hsound⟩ := h.sound
  refine ⟨records, hsound.listed, hsound.disk.index.indexEntries, hsound.disk.ordered, fun r hr => ?_⟩
  have hplaced := hsound.disk.placed r hr
  exact ⟨hplaced.start_le, hplaced.stop_le, hplaced.storageRead⟩

def Machine.after (m : Machine) (reads : List Bool) (a : Act) : Machine :=
  ((m.act ⟨reads, []⟩ a).getD ([], m)).2

def oneEntry : Machine :=
  ((Machine.fresh.after [] .boot).after [] (.write [1, 2, 3])).after [] (.index (lit "a"))

-- The power fails after the first of the two sector writes for one more byte.
theorem reachable_index_interrupted : ∃ m : Machine, m.Reachable ∧ m.memory = none ∧
    m.disk 11 = .ofBytes [9] ∧ indexEntries (m.disk indexLba) = some [⟨lit "a", 10, 1⟩] ∧
    ∃ records : List Stored, records.Sublist m.submitted ∧
      indexEntries (m.disk indexLba) = some (records.map Stored.entry) ∧
      (records.Pairwise fun r s => r.handle.startLba + r.handle.sectors ≤ s.handle.startLba) ∧
      ∀ r ∈ records, dataStartLba ≤ r.handle.startLba ∧
        r.handle.startLba + r.handle.sectors ≤ (superblock m.disk).nextFreeLba ∧
        ((storageRead r.handle).exec m.disk .none).result = some (padded r.data) := by
  have hboot : (Machine.fresh.after [] .boot).Reachable := .act (a := .boot) .fresh trivial rfl
  have hwrite : ((Machine.fresh.after [] .boot).after [] (.write [1, 2, 3])).Reachable :=
    .act (a := .write [1, 2, 3]) hboot
      ⟨by decide, fun st hst => by cases hst; decide +kernel⟩ rfl
  have hentry : oneEntry.Reachable := .act (a := .index (lit "a")) hwrite trivial rfl
  have hcrash := Machine.Reachable.crash (a := .write [9]) hentry
    ⟨by decide, fun st hst => by cases hst; decide +kernel⟩ rfl 1
  exact ⟨_, hcrash, rfl, by decide +kernel, by decide +kernel, reachable_index hcrash⟩

end Wirth.Kernel.Storage

import Wirth.Kernel.Storage.Restore

namespace Wirth.Kernel.Storage

open Wirth.Lib Wirth.Kernel.Fs

-- Where the loops come to as long as none of their sums reaches 2^32.

inductive RecordAt (data : List UInt8) : Nat → Prop
  | first : RecordAt data 0
  | next {po : Nat} (h : RecordAt data po) (hpath : at32 data po ≠ 0)
      (hinside : po + 8 + at32 data po + at32 data (po + 4) ≤ data.length) :
      RecordAt data (po + 8 + at32 data po + at32 data (po + 4))

inductive EntryAt (index : List UInt8) : Nat → Nat → Prop
  | first : EntryAt index 0 4
  | next {k off : Nat} (h : EntryAt index k off) (hname : at32 index off ≠ 0)
      (hinside : off + 12 + at32 index off ≤ 512) : EntryAt index (k + 1) (off + 12 + at32 index off)

-- The header of a record or an entry that is looked at.

def RecordHeader (data : List UInt8) (po : Nat) : Prop :=
  RecordAt data po ∧ po + 8 ≤ data.length ∧ at32 data po ≠ 0

def EntryHeader (index : List UInt8) (off : Nat) : Prop :=
  ∃ k, EntryAt index k off ∧ k < at32 index 0 ∧ off + 12 ≤ 512 ∧ at32 index off ≠ 0

-- The sums do not wrap around, and no file is larger than the file system can make it.
structure PayloadFits (data : List UInt8) : Prop where
  sums : ∀ po, RecordHeader data po → po + 8 + at32 data po + at32 data (po + 4) < 2 ^ 32
  files : ∀ po, RecordHeader data po →
    po + 8 + at32 data po + at32 data (po + 4) ≤ data.length → at32 data (po + 4) ≤ 2 ^ 31

structure Restorable (d : Disk) : Prop where
  names : ∀ off, EntryHeader (d indexLba).bytes off → off + 12 + at32 (d indexLba).bytes off < 2 ^ 32
  sectors : ∀ off, EntryHeader (d indexLba).bytes off →
    off + 12 + at32 (d indexLba).bytes off ≤ 512 → at32 (d indexLba).bytes (off + 8) * 512 < 2 ^ 32
  payloads : ∀ off, EntryHeader (d indexLba).bytes off →
    off + 12 + at32 (d indexLba).bytes off ≤ 512 →
    PayloadFits (d.bytes (at32 (d indexLba).bytes (off + 4)) (at32 (d indexLba).bytes (off + 8)))

theorem load32_inside {buffer : List UInt8} {i : Nat} (h : i + 4 ≤ buffer.length) :
    load32 buffer i = .returned (at32 buffer i) := if_pos h

theorem loadBytes_inside {buffer : List UInt8} {i count : Nat} (h : i + count ≤ buffer.length) :
    ∃ bytes, loadBytes (some buffer) i count = .returned bytes ∧ bytes.length = count := by
  obtain ⟨bytes, hload⟩ := @loadBytes_returns (some buffer) i count fun _ => h
  exact ⟨bytes, hload, (loadBytes_returned hload).1⟩

theorem payloadLoop_returns {σ : Type} {P : σ → Prop}
    {visit : σ → Str → Ended (List UInt8) → Ended σ}
    (hvisit : ∀ s path bytes, P s → bytes.length ≤ 2 ^ 31 →
      ∃ s', visit s path (.returned bytes) = .returned s' ∧ P s')
    {data : List UInt8} (hdata : PayloadFits data) (hlimit : data.length + 8 < 2 ^ 32)
    {rounds po : Nat} (hpo : RecordAt data po) (hle : po ≤ data.length)
    (hrounds : data.length < po + rounds) {s : σ} (hs : P s) :
    ∃ s', payloadLoop visit data data.length rounds po s = .returned s' ∧ P s' := by
  induction rounds generalizing po s with
  | zero => exact absurd hrounds (by omega)
  | succ rounds ih =>
    rw [payloadLoop, uint32_eq_self (by omega)]
    by_cases hend : data.length < po + 8
    · exact ⟨s, if_pos hend, hs⟩
    rw [if_neg hend, load32_inside (by omega), load32_inside (by omega)]
    simp only [Ended.returned_bind]
    by_cases hzero : at32 data po = 0
    · exact ⟨s, if_pos (Or.inl hzero), hs⟩
    have hheader : RecordHeader data po := ⟨hpo, by omega, hzero⟩
    have hsum := hdata.sums po hheader
    rw [uint32_eq_self hsum]
    by_cases hbeyond : data.length < po + 8 + at32 data po + at32 data (po + 4)
    · exact ⟨s, if_pos (Or.inr hbeyond), hs⟩
    have hsize := hdata.files po hheader (by omega)
    obtain ⟨text, htext, _⟩ := @loadBytes_inside data (po + 8) (min (at32 data po) 255) (by omega)
    obtain ⟨bytes, hbytes, hlength⟩ := @loadBytes_inside data (po + 8 + at32 data po)
      (at32 data (po + 4)) (by omega)
    obtain ⟨s', hs', hP⟩ := hvisit s (cText text) bytes hs (by omega)
    rw [if_neg (by rw [not_or]; exact ⟨hzero, hbeyond⟩), htext]
    simp only [Ended.returned_bind]
    rw [uint32_eq_self (by omega), hbytes, hs', uint32_eq_self hsum]
    exact ih (hpo.next hzero (by omega)) (by omega) (by omega) hP

section Files

variable {fs : RamFs}

theorem makeParents_good (h : fs.Good) (path : Str) : (makeParents fs path).Good := by
  unfold makeParents
  generalize parentPrefixes path = parents
  induction parents generalizing fs with
  | nil => exact h
  | cons parent parents ih => exact ih (h.md (some parent))

theorem openPath_descriptor (fs : RamFs) (path : Option Str) (flags : UInt32) :
    (fs.openPath path flags).1 = -1 ∨ ∃ f i, (fs.openPath path flags).1 = f.val + kFdOffset ∧
      (fs.openPath path flags).2.fds f = ⟨true, some i, 0, flags⟩ := by
  have hfd : ∀ (st : RamFs) i, (st.openFd i flags).1 = -1 ∨ ∃ f i', (st.openFd i flags).1 =
      f.val + kFdOffset ∧ (st.openFd i flags).2.fds f = ⟨true, some i', 0, flags⟩ := by
    intro st i
    cases hf : st.allocFd with
    | none => exact Or.inl (by rw [RamFs.openFd, hf])
    | some f => grind [RamFs.openFd, setFd_self]
  have hinode : ∀ (st : RamFs) i, (st.openInode i flags).1 = -1 ∨ ∃ f i', (st.openInode i flags).1 =
      f.val + kFdOffset ∧ (st.openInode i flags).2.fds f = ⟨true, some i', 0, flags⟩ := by
    intro st i
    unfold RamFs.openInode
    by_cases hdir : (st.inodes i).isDirectory = true
    · rw [if_pos hdir]
      exact Or.inl rfl
    · rw [if_neg hdir]
      exact hfd _ i
  unfold RamFs.openPath
  split
  · exact Or.inl rfl
  rename_i normalized _
  by_cases hroot : normalized = rootPath
  · rw [if_pos hroot]
    exact Or.inl rfl
  grind

theorem createMarker_good (h : fs.Good) (name : Str) : (createMarker fs name).Good := by
  unfold createMarker
  simp only
  split_ifs
  · exact h.openPath _ _
  · exact (h.openPath _ _).close _

theorem restoreFile_good {alloc : Nat → Allocator} {s s' : Restoring} (h : s.fs.Good) {path : Str}
    {contents : Ended (List UInt8)} (hfile : restoreFile alloc s path contents = .returned s') :
    s'.fs.Good := by
  have hopen := (makeParents_good h path).openPath (some path) replaceFlags
  unfold restoreFile at hfile
  simp only at hfile
  split_ifs at hfile
  · cases hfile
    exact hopen
  · simp only [Ended.bind_eq_returned] at hfile
    obtain ⟨bytes, _, ⟨r, fs⟩, hwrite, hfile⟩ := hfile
    cases hfile
    exact (hopen.write hwrite).close _

theorem restoreFile_returns {alloc : Nat → Allocator} {s : Restoring} (h : s.fs.Good) (path : Str)
    {bytes : List UInt8} (hbytes : bytes.length ≤ 2 ^ 31) :
    ∃ s', restoreFile alloc s path (.returned bytes) = .returned s' := by
  obtain ⟨fs, hfs⟩ : ∃ fs, fs = makeParents s.fs path := ⟨_, rfl⟩
  have hopen := (makeParents_good h path).openPath (some path) replaceFlags
  rw [restoreFile, ← hfs]
  rw [← hfs] at hopen
  simp only
  rcases openPath_descriptor fs (some path) replaceFlags with hfail | ⟨f, i, hfd, hdesc⟩
  · simp [hfail]
  have hget : (fs.openPath (some path) replaceFlags).2.getFd (fs.openPath (some path) replaceFlags).1 =
      some f := by
    rw [hfd, RamFs.getFd]
    simp [hdesc]
  have hcount : (UInt32.ofNat bytes.length).toNat = bytes.length := by
    rw [UInt32.toNat_ofNat']
    omega
  obtain ⟨r, st', hwrite⟩ := @write_returns (fs.openPath (some path) replaceFlags).2
    (alloc s.allocations) (fs.openPath (some path) replaceFlags).1 (some fun i => bytes.getD i 0)
    (UInt32.ofNat bytes.length) hopen.sized (by
      grind)
  rw [if_neg (by rw [hfd]; unfold kFdOffset; omega)]
  simp only [Ended.returned_bind, hwrite]
  exact ⟨_, rfl⟩

end Files

section Entries

variable {d : Disk} {alloc : Nat → Allocator}

theorem restoreEntry_yields {name : Str} {start sectors : Nat} {s : Restoring} (h : s.fs.Good)
    (hsectors : sectors * 512 < 2 ^ 32) (hpayload : PayloadFits (d.bytes start sectors)) :
    Program.Yields d (fun s' => s'.fs.Good) (restoreEntry alloc name start sectors s) := by
  rw [restoreEntry, uint32_eq_self hsectors]
  split_ifs with hnone hsmall
  · exact Program.yields_pure h
  · omega
  refine (Program.yields_readSectors start sectors).bind fun r hr => ?_
  cases r with
  | none => exact Program.yields_pure h
  | some data =>
    rw [hr data rfl]
    have hlength : (d.bytes start sectors).length = sectors * 512 := by
      rw [Disk.bytes_length, Nat.mul_comm]
    have hloop := @payloadLoop_returns Restoring (fun s => s.fs.Good) (restoreFile alloc)
      (fun s path bytes hs hbytes => by
        obtain ⟨s', hs'⟩ := @restoreFile_returns alloc s hs path bytes hbytes
        exact ⟨s', hs', restoreFile_good hs hs'⟩) (d.bytes start sectors)
      hpayload (by omega) payloadRounds 0 .first (Nat.zero_le _)
      (by unfold payloadRounds; omega) { s with allocations := s.allocations + 1 } h
    rw [hlength] at hloop
    exact (Program.yields_ended hloop).bind fun s' hs' =>
      Program.yields_pure (createMarker_good hs' name)

theorem restoreEntries_entry {index : List UInt8} (hlength : index.length = 512) {count off : Nat}
    {name : List UInt8} {s : Restoring} (hname : at32 index off ≠ 0)
    (hinside : off + 12 + at32 index off ≤ 512)
    (htext : loadBytes (some index) (off + 12) (min (at32 index off) 127) = .returned name) :
    restoreEntries alloc index (count + 1) off s =
      restoreEntry alloc (cText name) (at32 index (off + 4)) (at32 index (off + 8)) s >>= fun s =>
        restoreEntries alloc index count (off + 12 + at32 index off) s := by
  rw [restoreEntries, uint32_eq_self (by omega), if_neg (by omega), load32_inside (by omega),
    load32_inside (by omega), load32_inside (by omega)]
  simp only [Program.ended_bind]
  rw [uint32_eq_self (by omega), if_neg (by omega), htext, Program.ended_bind]

theorem restoreEntries_yields (hd : Restorable d) {count k off : Nat}
    (hentry : EntryAt (d indexLba).bytes k off) (hcount : k + count = at32 (d indexLba).bytes 0)
    (hoff : off ≤ 512) {s : Restoring} (h : s.fs.Good) :
    Program.Yields d (fun s' => s'.fs.Good)
      (restoreEntries alloc (d indexLba).bytes count off s) := by
  induction count generalizing k off s with
  | zero => exact Program.yields_pure h
  | succ count ih =>
    have hlength := (d indexLba).length_eq
    by_cases hend : 512 < off + 12
    · rw [restoreEntries, uint32_eq_self (by omega), if_pos hend]
      exact Program.yields_pure h
    by_cases hzero : at32 (d indexLba).bytes off = 0
    · rw [restoreEntries, uint32_eq_self (by omega), if_neg hend, load32_inside (by omega),
        load32_inside (by omega), load32_inside (by omega)]
      simp [Program.yields_pure, hzero, h]
    have hheader : EntryHeader (d indexLba).bytes off := ⟨k, hentry, by omega, by omega, hzero⟩
    by_cases hbeyond : 512 < off + 12 + at32 (d indexLba).bytes off
    · rw [restoreEntries, uint32_eq_self (by omega), if_neg hend, load32_inside (by omega),
        load32_inside (by omega), load32_inside (by omega)]
      simp only [Program.ended_bind]
      rw [uint32_eq_self (hd.names off hheader), if_pos (Or.inr hbeyond)]
      exact Program.yields_pure h
    obtain ⟨name, hname, _⟩ := @loadBytes_inside (d indexLba).bytes (off + 12)
      (min (at32 (d indexLba).bytes off) 127) (by omega)
    rw [restoreEntries_entry hlength hzero (by omega) hname]
    refine (restoreEntry_yields h (hd.sectors off hheader (by omega))
      (hd.payloads off hheader (by omega))).bind fun s' hs' => ?_
    exact ih (hentry.next hzero (by omega)) (by omega) (by omega) hs'

end Entries

-- What is restored is a proper file system, whatever is on the disk.

theorem payloadLoop_keeps {σ : Type} {P : σ → Prop} {visit : σ → Str → Ended (List UInt8) → Ended σ}
    (hvisit : ∀ s path contents s', P s → visit s path contents = .returned s' → P s')
    {data : List UInt8} {size rounds po : Nat} {s s' : σ} (hs : P s)
    (h : payloadLoop visit data size rounds po s = .returned s') : P s' := by
  induction rounds generalizing po s with
  | zero => cases h
  | succ rounds ih =>
    rw [payloadLoop] at h
    split_ifs at h
    · cases h
      exact hs
    grind [Ended.bind_eq_returned]

section Kept

variable {allowed : Nat → Prop} {alloc : Nat → Allocator}

theorem restoreEntry_meets {name : Str} {start sectors : Nat} {s : Restoring} (h : s.fs.Good) :
    Program.Meets allowed (fun s' => s'.fs.Good) (restoreEntry alloc name start sectors s) := by
  rw [restoreEntry]
  split_ifs
  · exact Program.meets_pure h
  · exact Program.meets_ended fun _ hs => by cases hs
  refine (Program.meets_device (Io.readSectors_meets start sectors)).bind fun r _ => ?_
  cases r with
  | none => exact Program.meets_pure h
  | some data =>
    refine (Program.meets_ended (Q := fun s' : Restoring => s'.fs.Good) fun s' hs' => ?_).bind
      fun s' hs' => Program.meets_pure (createMarker_good hs' name)
    refine @payloadLoop_keeps Restoring (fun s => s.fs.Good) (restoreFile alloc)
      (fun s path contents s' hs hfile => restoreFile_good hs hfile) _ _ _ _ _ _ ?_ hs'
    exact h

theorem restoreEntries_meets {index : List UInt8} {count off : Nat} {s : Restoring} (h : s.fs.Good) :
    Program.Meets allowed (fun s' => s'.fs.Good) (restoreEntries alloc index count off s) := by
  induction count generalizing off s with
  | zero => exact Program.meets_pure h
  | succ count ih =>
    have hany : ∀ (x : Ended Nat), Program.Meets allowed (fun _ => True) (Program.ended x) :=
      fun x => Program.meets_ended fun _ _ => trivial
    rw [restoreEntries]
    split_ifs
    · exact Program.meets_pure h
    refine (hany _).bind fun nameLen _ => (hany _).bind fun start _ => (hany _).bind
      fun sectors _ => ?_
    simp only
    split_ifs
    · exact Program.meets_pure h
    refine (Program.meets_ended (Q := fun _ => True) fun _ _ => trivial).bind fun name _ => ?_
    exact (restoreEntry_meets h).bind fun s' hs' => ih hs'

theorem storageRestorePackages_meets {fs : RamFs} (h : fs.Good) :
    Program.Meets allowed RamFs.Good (storageRestorePackages alloc fs) := by
  refine (Program.meets_device (Io.readSectors_meets indexLba 1)).bind fun r _ => ?_
  cases r with
  | none => exact Program.meets_pure h
  | some index =>
    exact (restoreEntries_meets (s := ⟨fs, 0⟩) h).bind fun s hs => Program.meets_pure hs

end Kept

def smallDisk (index data : List UInt8) : Disk :=
  fun lba => if lba = indexLba then .ofBytes index else if lba = dataStartLba then .ofBytes data
    else .zero

def entryBytes (nameLen start sectors : Nat) (name : Str) : List UInt8 :=
  le32 nameLen ++ (le32 start ++ (le32 sectors ++ name))

def oneFileDisk : Disk :=
  smallDisk (le32 1 ++ entryBytes 1 dataStartLba 1 (lit "a")) (encodeFiles [⟨lit "/a", [1]⟩])

theorem oneFileDisk_restorable : Restorable oneFileDisk := by
  have hentry : ∀ off, EntryHeader (oneFileDisk indexLba).bytes off → off = 4 := by
    rintro off ⟨k, hentry, hk, _⟩
    have hcount : at32 (oneFileDisk indexLba).bytes 0 = 1 := by decide +kernel
    cases hentry with
    | first => rfl
    | next => omega
  have hrecord : ∀ po, RecordHeader (oneFileDisk.bytes dataStartLba 1) po → po = 0 := by
    rintro po ⟨hpo, _, hpath⟩
    have hplace : po = 0 ∨ po = 11 := by
      clear hpath
      induction hpo with
      | first => exact Or.inl rfl
      | next _ hpath _ ih =>
        rcases ih (by omega) with rfl | rfl
        · exact Or.inr (by decide +kernel)
        · exact absurd (by decide +kernel) hpath
    rcases hplace with rfl | rfl
    · rfl
    · exact absurd (by decide +kernel) hpath
  refine ⟨fun off hoff => ?_, fun off hoff _ => ?_, fun off hoff _ => ?_⟩
  · rw [hentry off hoff]
    decide +kernel
  · rw [hentry off hoff]
    decide +kernel
  · rw [hentry off hoff, show at32 (oneFileDisk indexLba).bytes (4 + 4) = dataStartLba by decide +kernel,
      show at32 (oneFileDisk indexLba).bytes (4 + 8) = 1 by decide +kernel]
    refine ⟨fun po hpo => ?_, fun po hpo _ => ?_⟩
    · rw [hrecord po hpo]
      decide +kernel
    · rw [hrecord po hpo]
      decide +kernel

-- The sums wrap around in the length of a name, in the number of sectors and in the length of a
-- file. In the last case the loop is back at the first file.
def longNameDisk : Disk :=
  smallDisk (le32 2 ++ (entryBytes 470 0 0 (List.replicate 470 97) ++
    entryBytes (2 ^ 32 - 498) 0 0 [])) []

def manySectorsDisk : Disk :=
  smallDisk (le32 1 ++ entryBytes 1 dataStartLba 0x800001 (lit "a")) []

def longFileDisk : Disk :=
  smallDisk (le32 1 ++ entryBytes 1 dataStartLba 1 (lit "a")) (le32 2 ++ (le32 (2 ^ 32 - 10) ++ lit "/a"))

def circularDisk : Disk :=
  smallDisk (le32 1 ++ entryBytes 1 dataStartLba 1 (lit "a")) (le32 1 ++ (le32 (2 ^ 32 - 9) ++ lit "/"))

theorem circular_diverges {alloc : Nat → Allocator} (rounds : Nat) (s : Restoring) :
    payloadLoop (restoreFile alloc) (circularDisk.bytes dataStartLba 1) 512 rounds 0 s = .diverges := by
  induction rounds with
  | zero => rfl
  | succ rounds ih =>
    have hpath : load32 (circularDisk.bytes dataStartLba 1) 0 = .returned 1 := by decide +kernel
    have hdata : load32 (circularDisk.bytes dataStartLba 1) 4 = .returned (2 ^ 32 - 9) := by
      decide +kernel
    have htext : loadBytes (some (circularDisk.bytes dataStartLba 1)) 8 1 = .returned rootPath := by
      decide +kernel
    rw [payloadLoop, Nat.zero_add, Nat.zero_add, show uint32 8 = 8 from rfl, if_neg (by omega),
      hpath, hdata]
    simp only [Ended.returned_bind]
    rw [show uint32 (8 + 1 + (2 ^ 32 - 9)) = 0 from rfl, if_neg (by omega),
      show min 1 255 = 1 from rfl, htext]
    exact ih

theorem restore_circular (fs : RamFs) :
    ((storageRestorePackages (fun _ => zeroed) fs).exec circularDisk .none).result = .diverges := by
  have hread : ∀ lba, (Program.device (storageReadRaw lba 1)).exec circularDisk .none =
      ⟨.returned (some (circularDisk.bytes lba 1)), [], .none⟩ := by
    intro lba
    rw [Program.exec_device, storageReadRaw, Io.exec_readSectors]
  have hentry : ∀ s, (restoreEntry (fun _ => zeroed) (lit "a") dataStartLba 1 s).exec circularDisk
      .none = ⟨.diverges, [], .none⟩ := by
    intro s
    have hloop : (Program.ended (payloadLoop (restoreFile fun _ => zeroed)
        (circularDisk.bytes dataStartLba 1) 512 payloadRounds 0
        { s with allocations := s.allocations + 1 })).exec circularDisk .none =
        ⟨.diverges, [], .none⟩ := by
      rw [circular_diverges, Program.exec_ended]
    have hbuffer : zeroed.buffer 512 ≠ none := Option.some_ne_none _
    rw [restoreEntry, show uint32 (1 * 512) = 512 from rfl, if_neg hbuffer,
      if_neg (by omega), Program.exec_bind_read (hread dataStartLba)]
    exact Program.exec_bind_diverges hloop
  have hentries : ∀ s, (restoreEntries (fun _ => zeroed) (circularDisk.bytes indexLba 1) 1 4 s).exec
      circularDisk .none = ⟨.diverges, [], .none⟩ := by
    intro s
    have hname : at32 (circularDisk.bytes indexLba 1) 4 = 1 := by decide +kernel
    have hstart : at32 (circularDisk.bytes indexLba 1) (4 + 4) = dataStartLba := by decide +kernel
    have hsectors : at32 (circularDisk.bytes indexLba 1) (4 + 8) = 1 := by decide +kernel
    have htext : loadBytes (some (circularDisk.bytes indexLba 1)) (4 + 12)
        (min (at32 (circularDisk.bytes indexLba 1) 4) 127) = .returned (lit "a") := by
      decide +kernel
    rw [restoreEntries_entry (Disk.bytes_length _ _) (by omega) (by omega) htext, hstart, hsectors,
      show cText (lit "a") = lit "a" by decide]
    exact Program.exec_bind_diverges (hentry s)
  have hall := Program.exec_bind_diverges (f := fun s => pure s.fs) (hentries ⟨fs, 0⟩)
  rw [storageRestorePackages, Program.exec_bind_read (hread indexLba)]
  exact congrArg Outcome.result hall

end Wirth.Kernel.Storage

import Wirth.Kernel.Fs.Files

namespace Wirth.Kernel.Fs

open Wirth.Lib

namespace RamFs

-- The file that `open` is about, and the state in which it is there.
def resolve (st : RamFs) (path : Option Str) (flags : UInt32) : Option (Fin kMaxInodes × RamFs) :=
  match normalizePath path nameSize with
  | none => none
  | some normalized =>
      if normalized = rootPath then none
      else match st.findInode normalized with
        | some i => if (st.inodes i).isDirectory then none else some (i, st)
        | none =>
            if flags &&& kOpenCreate = 0 then none
            else if st.parentDirectoryExists normalized = false then none
            else st.createInode normalized false

def truncates (flags : UInt32) : Prop := flags &&& kOpenTruncate ≠ 0 ∧ flags &&& kOpenWrite ≠ 0

instance (flags : UInt32) : Decidable (truncates flags) :=
  inferInstanceAs (Decidable (_ ∧ _))

structure Names (st : RamFs) (path : Option Str) (i : Fin kMaxInodes) : Prop where
  found : ∃ normalized, normalizePath path nameSize = some normalized ∧ normalized ≠ rootPath ∧
    st.findInode normalized = some i
  file : (st.inodes i).isDirectory = false

-- The path names nothing yet, and there is room for a file there.
structure Lacks (st : RamFs) (path : Option Str) (normalized : Str) : Prop where
  normal : normalizePath path nameSize = some normalized
  root : normalized ≠ rootPath
  missing : st.findInode normalized = none
  parent : st.parentDirectoryExists normalized = true
  slot : ∃ i, (st.inodes i).used = false

section Resolve

variable {st st' : RamFs} {path : Option Str} {flags : UInt32} {i : Fin kMaxInodes}

theorem openPath_eq (st : RamFs) (path : Option Str) (flags : UInt32) :
    st.openPath path flags = match st.resolve path flags with
      | none => (-1, st)
      | some (i, st') => (st'.truncated i flags).openFd i flags := by
  unfold openPath resolve
  cases hnormal : normalizePath path nameSize with
  | none => rfl
  | some normalized =>
    dsimp only
    by_cases hroot : normalized = rootPath
    · rw [if_pos hroot, if_pos hroot]
    rw [if_neg hroot, if_neg hroot]
    cases hfind : st.findInode normalized with
    | some i =>
      dsimp only [openInode]
      grind
    | none =>
      by_cases hcreate : flags &&& kOpenCreate = 0
      · rw [if_pos hcreate, if_pos hcreate]
      rw [if_neg hcreate, if_neg hcreate]
      by_cases hparent : st.parentDirectoryExists normalized = false
      · rw [if_pos hparent, if_pos hparent]
      rw [if_neg hparent, if_neg hparent]
      cases hmade : st.createInode normalized false with
      | none => rfl
      | some made =>
        obtain ⟨i, st'⟩ := made
        obtain ⟨_, rfl⟩ := createInode_some (normalizePath_normal hnormal).length hmade
        simp [openInode]

theorem resolve_names (h : st.Names path i) : st.resolve path flags = some (i, st) := by
  obtain ⟨normalized, hnormal, hroot, hfind⟩ := h.found
  rw [resolve, hnormal]
  dsimp only
  rw [if_neg hroot, hfind]
  dsimp only
  rw [if_neg (by simp [h.file])]

theorem createInode_free {normalized : Str} (h : ∃ i, (st.inodes i).used = false) (isDirectory : Bool) :
    ∃ i st', st.createInode normalized isDirectory = some (i, st') := by
  obtain ⟨j, hj⟩ := h
  cases hslot : firstSlot (fun inode => !inode.used) st.inodes with
  | none =>
    have hused := firstSlot_eq_none hslot j
    rw [hj] at hused
    cases hused
  | some i => exact ⟨i, _, by rw [createInode, hslot]; rfl⟩

theorem resolve_lacks {normalized : Str} (h : st.Lacks path normalized)
    (hcreate : flags &&& kOpenCreate ≠ 0) :
    ∃ i, (st.inodes i).used = false ∧ st.resolve path flags =
      some (i, st.setInode i ⟨true, false, normalized, none, 0, 0⟩) := by
  obtain ⟨i, st', hmade⟩ := @createInode_free st normalized h.slot false
  obtain ⟨hfree, rfl⟩ := createInode_some (normalizePath_normal h.normal).length hmade
  refine ⟨i, hfree, ?_⟩
  rw [resolve, h.normal]
  dsimp only
  rw [if_neg h.root, h.missing]
  rw [if_neg hcreate, if_neg (by simp [h.parent]), hmade]

theorem resolve_some (h : st.resolve path flags = some (i, st')) :
    st.Names path i ∧ st' = st ∨
      ∃ normalized, st.Lacks path normalized ∧ flags &&& kOpenCreate ≠ 0 ∧
        (st.inodes i).used = false ∧ st' = st.setInode i ⟨true, false, normalized, none, 0, 0⟩ := by
  unfold resolve at h
  cases hnormal : normalizePath path nameSize with
  | none =>
    rw [hnormal] at h
    cases h
  | some normalized =>
    rw [hnormal] at h
    dsimp only at h
    by_cases hroot : normalized = rootPath
    · rw [if_pos hroot] at h
      cases h
    cases hfind : st.findInode normalized with
    | some j =>
      rw [hfind] at h
      dsimp only at h
      split_ifs at h with hdir
      cases h
      exact Or.inl ⟨⟨⟨normalized, hnormal, hroot, hfind⟩, by simpa using hdir⟩, rfl⟩
    | none =>
      rw [hfind] at h
      split_ifs at h with hcreate hparent
      obtain ⟨hfree, hst'⟩ := createInode_some (normalizePath_normal hnormal).length h
      exact Or.inr ⟨normalized, ⟨hnormal, hroot, hfind, by simpa using hparent, ⟨i, hfree⟩⟩,
        hcreate, hfree, hst'⟩

end Resolve

-- What there is: the files and directories with their sizes and contents, and the descriptors.

structure Entry where
  name : Str
  isDirectory : Bool
  size : Nat
  bytes : List UInt8
  deriving DecidableEq

def entryAt (st : RamFs) (i : Fin kMaxInodes) : Option Entry :=
  let inode := st.inodes i
  if inode.used then some ⟨inode.name, inode.isDirectory, inode.size, inode.bytes⟩ else none

def view (st : RamFs) : (Fin kMaxInodes → Option Entry) × (Fin kMaxFds → FileDescriptor) :=
  (st.entryAt, st.fds)

-- A file that is there is emptied, or one that is not there is made, and no descriptor is left.
def Spoils (st : RamFs) (path : Option Str) (flags : UInt32) : Prop :=
  st.allocFd = none ∧
    ((∃ i, st.Names path i ∧ truncates flags ∧ (st.inodes i).size ≠ 0) ∨
      flags &&& kOpenCreate ≠ 0 ∧ ∃ normalized, st.Lacks path normalized)

section FailedOpen

variable {st : RamFs} {path : Option Str} {flags : UInt32} {i : Fin kMaxInodes}

theorem openFd_full (h : st.allocFd = none) (i : Fin kMaxInodes) (flags : UInt32) :
    st.openFd i flags = (-1, st) := by
  rw [openFd, h]

theorem openFd_room {f : Fin kMaxFds} (h : st.allocFd = some f) (i : Fin kMaxInodes)
    (flags : UInt32) : (st.openFd i flags).1 ≠ -1 := by
  rw [openFd, h]
  simp only [kFdOffset]
  omega

theorem truncated_eq (st : RamFs) (i : Fin kMaxInodes) (flags : UInt32) :
    st.truncated i flags =
      if truncates flags then st.setInode i { st.inodes i with size := 0 } else st := rfl

theorem truncated_allocFd (st : RamFs) (i : Fin kMaxInodes) (flags : UInt32) :
    (st.truncated i flags).allocFd = st.allocFd := by
  unfold truncated
  split_ifs <;> rfl

theorem truncated_view_iff (h : (st.inodes i).used = true) :
    (st.truncated i flags).view = st.view ↔ ¬(truncates flags ∧ (st.inodes i).size ≠ 0) := by
  rw [truncated_eq]
  by_cases htrunc : truncates flags
  · rw [if_pos htrunc]
    by_cases hsize : (st.inodes i).size = 0
    · have hsame : st.setInode i { st.inodes i with size := 0 } = st := by
        rw [← hsize]
        simp [setInode]
      rw [hsame]
      simp [hsize]
    · refine iff_of_false ?_ fun hnot => hnot ⟨htrunc, hsize⟩
      intro hview
      have hentry := congrFun (Prod.mk.inj hview).1 i
      simp only [entryAt, setInode_self, h, if_true, Option.some.injEq, Entry.mk.injEq] at hentry
      exact hsize hentry.2.2.1.symm
  simp [htrunc]

theorem made_view_ne {inode : Inode} (hfree : (st.inodes i).used = false) (hused : inode.used = true) :
    (st.setInode i inode).view ≠ st.view := by
  intro hview
  have hentry := congrFun (Prod.mk.inj hview).1 i
  simp [entryAt, hused, hfree] at hentry

theorem openFd_unchanged_iff (st : RamFs) (i : Fin kMaxInodes) (flags : UInt32)
    (before : (Fin kMaxInodes → Option Entry) × (Fin kMaxFds → FileDescriptor)) :
    ((st.openFd i flags).1 = -1 → (st.openFd i flags).2.view = before) ↔
      (st.allocFd = none → st.view = before) := by
  cases hroom : st.allocFd with
  | some f => simp [openFd_room, hroom]
  | none =>
    simp [openFd_full, hroom]

theorem Names.unique {j : Fin kMaxInodes} (h : st.Names path i) (h' : st.Names path j) : i = j := by
  obtain ⟨normalized, hnormal, _, hfind⟩ := h.found
  obtain ⟨normalized', hnormal', _, hfind'⟩ := h'.found
  grind

theorem Names.not_lacks {normalized : Str} (h : st.Names path i) : ¬st.Lacks path normalized := by
  intro hlacks
  obtain ⟨normalized', hnormal, _, hfind⟩ := h.found
  rw [hlacks.normal] at hnormal
  cases hnormal
  rw [hlacks.missing] at hfind
  cases hfind

theorem Names.used (h : st.Names path i) : (st.inodes i).used = true := by
  obtain ⟨normalized, _, _, hfind⟩ := h.found
  exact (findInode_some hfind).1

theorem Names.spoils_iff (h : st.Names path i) :
    st.Spoils path flags ↔
      st.allocFd = none ∧ truncates flags ∧ (st.inodes i).size ≠ 0 := by
  constructor
  · rintro ⟨hfull, ⟨j, hj, hloses⟩ | ⟨_, normalized, hlacks⟩⟩
    · cases h.unique hj
      exact ⟨hfull, hloses⟩
    · exact absurd hlacks h.not_lacks
  · rintro ⟨hfull, hloses⟩
    exact ⟨hfull, Or.inl ⟨i, h, hloses⟩⟩

theorem Lacks.spoils_iff {normalized : Str} (h : st.Lacks path normalized)
    (hcreate : flags &&& kOpenCreate ≠ 0) : st.Spoils path flags ↔ st.allocFd = none :=
  ⟨fun hspoils => hspoils.1, fun hfull => ⟨hfull, Or.inr ⟨hcreate, normalized, h⟩⟩⟩

theorem not_spoils_of_unresolved (h : st.resolve path flags = none) : ¬st.Spoils path flags := by
  rintro ⟨_, ⟨i, hnames, _⟩ | ⟨hcreate, normalized, hlacks⟩⟩
  · rw [resolve_names hnames] at h
    cases h
  grind [resolve_lacks]

-- The file is made and emptied before a descriptor is looked for, and neither is undone.
theorem failed_open_unchanged_iff (st : RamFs) (path : Option Str) (flags : UInt32) :
    ((st.openPath path flags).1 = -1 → (st.openPath path flags).2.view = st.view) ↔
      ¬st.Spoils path flags := by
  rw [openPath_eq]
  cases hres : st.resolve path flags with
  | none => exact iff_of_true (fun _ => rfl) (not_spoils_of_unresolved hres)
  | some found =>
    obtain ⟨i, st'⟩ := found
    dsimp only
    rw [openFd_unchanged_iff, truncated_allocFd]
    obtain ⟨hnames, rfl⟩ | ⟨normalized, hlacks, hcreate, hfree, rfl⟩ := resolve_some hres
    · rw [truncated_view_iff hnames.used, hnames.spoils_iff]
      exact not_and.symm
    · rw [hlacks.spoils_iff hcreate]
      have hsame : ((st.setInode i ⟨true, false, normalized, none, 0, 0⟩).truncated i flags).view =
          (st.setInode i ⟨true, false, normalized, none, 0, 0⟩).view :=
        (truncated_view_iff (by simp)).2 (by simp)
      rw [hsame]
      exact forall_congr' fun _ => iff_of_false (made_view_ne hfree rfl) id

def secondSlot : Fin kMaxInodes := ⟨1, by decide⟩

def allOpen : RamFs where
  inodes i :=
    if i.val = 0 then ⟨true, true, rootPath, none, 0, 0⟩
    else if i = secondSlot then ⟨true, false, lit "/f", some (lit "abc"), 3, 3⟩
    else .empty
  fds _ := ⟨true, some secondSlot, 0, kOpenRead⟩

-- With the flags that `cp` opens its destination with.
theorem failed_open_truncates :
    let failed := allOpen.openPath (some (lit "/f")) (kOpenWrite ||| kOpenCreate ||| kOpenTruncate)
    failed.1 = -1 ∧ allOpen.entryAt secondSlot = some ⟨lit "/f", false, 3, lit "abc"⟩ ∧
      failed.2.entryAt secondSlot = some ⟨lit "/f", false, 0, []⟩ := by
  decide +kernel

end FailedOpen

end RamFs

end Wirth.Kernel.Fs

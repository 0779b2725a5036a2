import Wirth.Kernel.Fs.Copying

namespace Wirth.Kernel.Fs

open Wirth.Lib

namespace RamFs

def TwoFree (st : RamFs) : Prop := ∃ f g, f ≠ g ∧ (st.fds f).used = false ∧ (st.fds g).used = false

-- A path that a file can be copied to, and how much of a buffer there is.
def Receives (st : RamFs) (path : Option Str) (capacity : Nat) : Prop :=
  (∃ j, st.Names path j ∧ (st.inodes j).capacity = capacity) ∨
    (∃ normalized, st.Lacks path normalized) ∧ capacity = 0

-- The destination as it is when the first byte is copied: an empty file under its name.
structure Target (st : RamFs) (path : Option Str) (j : Fin kMaxInodes) (inode : Inode) : Prop where
  receives : st.Receives path inode.capacity
  name : normalizePath path nameSize = some inode.name
  root : inode.name ≠ rootPath
  used : inode.used = true
  file : inode.isDirectory = false
  empty : inode.size = 0
  sized : inode.WellSized
  same : (st.inodes j).used = true → (st.inodes j).name = inode.name
  other : ∀ k, k ≠ j → (st.inodes k).used = true → (st.inodes k).name ≠ inode.name

section Destination

variable {st st' : RamFs} {path : Option Str} {i j : Fin kMaxInodes} {f : Fin kMaxFds}
  {desc : FileDescriptor}

theorem Receives.unique {c c' : Nat} (h : st.Receives path c) (h' : st.Receives path c') : c = c' := by
  rcases h with ⟨j, hj, rfl⟩ | ⟨⟨_, hlacks⟩, rfl⟩
  · rcases h' with ⟨k, hk, rfl⟩ | ⟨⟨_, hlacks⟩, _⟩
    · rw [hj.unique hk]
    · exact absurd hlacks hj.not_lacks
  · rcases h' with ⟨k, hk, _⟩ | ⟨_, rfl⟩
    · exact absurd hlacks hk.not_lacks
    · rfl

theorem resolve_setFd (st : RamFs) (path : Option Str) (flags : UInt32) (f : Fin kMaxFds)
    (desc : FileDescriptor) : (st.setFd f desc).resolve path flags =
      (st.resolve path flags).map fun found => (found.1, found.2.setFd f desc) := by
  have hfind : ∀ name, (st.setFd f desc).findInode name = st.findInode name := fun _ => rfl
  have hparent : ∀ name, (st.setFd f desc).parentDirectoryExists name =
      st.parentDirectoryExists name := fun _ => rfl
  have hmade : ∀ name kind, (st.setFd f desc).createInode name kind =
      (st.createInode name kind).map fun found => (found.1, found.2.setFd f desc) := by
    intro name kind
    rw [createInode, createInode, Option.map_map]
    rfl
  unfold resolve
  cases normalizePath path nameSize with
  | none => rfl
  | some normalized =>
    simp only [hfind]
    cases st.findInode normalized with
    | some i =>
      by_cases hroot : normalized = rootPath
      · rw [if_pos hroot, if_pos hroot]
        rfl
      rw [if_neg hroot, if_neg hroot]
      by_cases hdir : (st.inodes i).isDirectory = true
      · simp only [setFd_inodes, hdir, if_true, Option.map_none]
      · simp only [setFd_inodes, hdir, Bool.false_eq_true, if_false, Option.map_some]
    | none =>
      grind

theorem resolve_target (h : st.Good) (hres : st.resolve path copyFlags = some (j, st')) :
    ∃ inode, st.Target path j inode ∧ st'.truncated j copyFlags = st.setInode j inode := by
  have hcut : truncates copyFlags := by decide
  rw [truncated_eq, if_pos hcut]
  obtain ⟨hnames, rfl⟩ | ⟨normalized, hlacks, _, hfree, rfl⟩ := resolve_some hres
  · obtain ⟨normalized, hnormal, hroot, hfind⟩ := hnames.found
    obtain ⟨hused, rfl⟩ := findInode_some hfind
    have hsized := h.sized j
    refine ⟨{ st'.inodes j with size := 0 }, ⟨Or.inl ⟨j, hnames, rfl⟩, hnormal, hroot, hused, hnames.file, rfl,
      ⟨hsized.buffer, Nat.zero_le _, hsized.capacity_lt⟩, fun _ => rfl, ?_⟩, rfl⟩
    intro k hk hkused hname
    exact hk (h.tree.unique k j hkused hused hname)
  · refine ⟨⟨true, false, normalized, none, 0, 0⟩, ⟨Or.inr ⟨⟨normalized, hlacks⟩, rfl⟩,
      hlacks.normal, hlacks.root, rfl, rfl, rfl, emptyInode_wellSized _ _ _, ?_, ?_⟩, ?_⟩
    · simp [hfree]
    · intro k _ hk
      exact findInode_none hlacks.missing k hk
    · simp [setInode]

theorem not_receives (h : st.resolve path copyFlags = none) (c : Nat) : ¬st.Receives path c := by
  rintro (⟨j, hj, _⟩ | ⟨⟨normalized, hlacks⟩, _⟩)
  · rw [resolve_names hj] at h
    cases h
  · obtain ⟨j, _, hsome⟩ := resolve_lacks hlacks (by decide : copyFlags &&& kOpenCreate ≠ 0)
    rw [hsome] at h
    cases h

theorem TwoFree.allocFd_ne (h : st.TwoFree) : st.allocFd ≠ none := by
  intro hnone
  obtain ⟨f, _, _, hf, _⟩ := h
  have := firstSlot_eq_none hnone f
  rw [hf] at this
  cases this

theorem allocFd_second (hf : st.allocFd = some f) (hused : desc.used = true) :
    (∃ g, (st.setFd f desc).allocFd = some g ∧ f ≠ g ∧ st.TwoFree) ∨
      (st.setFd f desc).allocFd = none ∧ ¬st.TwoFree := by
  have hfree : (st.fds f).used = false := by simpa using firstSlot_eq_some hf
  cases hsecond : (st.setFd f desc).allocFd with
  | some g =>
    have hg : ((st.setFd f desc).fds g).used = false := by simpa using firstSlot_eq_some hsecond
    have hne : f ≠ g := by
      rintro rfl
      rw [setFd_self, hused] at hg
      cases hg
    rw [setFd_of_ne hne.symm] at hg
    exact Or.inl ⟨g, rfl, hne, f, g, hne, hfree, hg⟩
  | none =>
    refine Or.inr ⟨rfl, ?_⟩
    have hall : ∀ k, k ≠ f → (st.fds k).used = true := by
      intro k hk
      have := firstSlot_eq_none hsecond k
      rw [setFd_of_ne hk] at this
      simpa using this
    rintro ⟨a, b, hab, ha, hb⟩
    grind

end Destination

end RamFs

inductive Copies (alloc : Nat → Allocator) (chunk : Nat) (st : RamFs) (dst : Option Str)
    (i : Fin kMaxInodes) : Ended (CopyEnd × RamFs) → Prop
  | noSource (hfull : st.allocFd = none) : Copies alloc chunk st dst i (.returned (.noSource, st))
  | noDestination (hfd : st.allocFd ≠ none) (hnone : ∀ c, ¬st.Receives dst c) :
      Copies alloc chunk st dst i (.returned (.noDestination, st))
  | oneFd {j : Fin kMaxInodes} {inode : Inode} (hfd : st.allocFd ≠ none) (hone : ¬st.TwoFree)
      (htarget : st.Target dst j inode) :
      Copies alloc chunk st dst i (.returned (.noDestination, st.setInode j inode))
  | ontoItself {inode : Inode} (htwo : st.TwoFree) (htarget : st.Target dst i inode) :
      Copies alloc chunk st dst i (.returned (.finished, st.setInode i inode))
  | whole {j : Fin kMaxInodes} {inode inode' : Inode} (htwo : st.TwoFree) (hother : i ≠ j)
      (htarget : st.Target dst j inode) (happends : inode.Appends inode' (st.inodes i).bytes)
      (hfed : fed alloc chunk (st.inodes i).size (2 ^ 32) 0 inode.capacity 0 = .returned true) :
      Copies alloc chunk st dst i (.returned (.finished, st.setInode j inode'))
  | part {j : Fin kMaxInodes} {inode inode' : Inode} {bytes : List UInt8} (htwo : st.TwoFree)
      (hother : i ≠ j) (htarget : st.Target dst j inode) (happends : inode.Appends inode' bytes)
      (hpart : bytes.length < (st.inodes i).bytes.length)
      (hfed : fed alloc chunk (st.inodes i).size (2 ^ 32) 0 inode.capacity 0 = .returned false) :
      Copies alloc chunk st dst i (.returned (.writeError, st.setInode j inode'))
  | endless {j : Fin kMaxInodes} {inode : Inode} (htwo : st.TwoFree) (hother : i ≠ j)
      (htarget : st.Target dst j inode)
      (hfed : fed alloc chunk (st.inodes i).size (2 ^ 32) 0 inode.capacity 0 = .diverges) :
      Copies alloc chunk st dst i .diverges

theorem copies_opened {alloc : Nat → Allocator} {chunk : UInt32} {st : RamFs} {dst : Option Str}
    {i j : Fin kMaxInodes} {f g : Fin kMaxFds} {inode : Inode} (h : st.Good) (hpos : 0 < chunk.toNat)
    (hchunk : chunk.toNat < 2 ^ 31) (hfg : f ≠ g) (hf : st.fds f = .empty) (hg : st.fds g = .empty)
    (htwo : st.TwoFree) (htarget : st.Target dst j inode) :
    Copies alloc chunk.toNat st dst i
      (copyChunks alloc chunk (f.val + kFdOffset) (g.val + kFdOffset) (2 ^ 32) 0
        (copying st i j f g inode 0 0) >>= fun r => .returned
          (r.1, ((r.2.close (f.val + kFdOffset)).2.close (g.val + kFdOffset)).2)) := by
  by_cases hij : i = j
  · subst hij
    rw [copyChunks_itself hfg htarget.empty htarget.sized hchunk]
    simp only [Ended.returned_bind]
    rw [copying_closed hfg hf hg]
    exact .ontoItself htwo htarget
  have hruns := @copyChunks_runs st i j f g inode alloc chunk hij hfg (h.sized i) hpos hchunk
    htarget.sized (by simp [Inode.bytes, htarget.empty]) (by rw [htarget.empty]; exact Nat.zero_le _)
    (2 ^ 32) 0
  rw [htarget.empty, List.drop_zero] at hruns
  generalize hfed : fed alloc chunk.toNat (st.inodes i).size (2 ^ 32) 0 inode.capacity 0 = heap at hruns
  generalize copyChunks alloc chunk (f.val + kFdOffset) (g.val + kFdOffset) (2 ^ 32) 0
    (copying st i j f g inode 0 0) = result at hruns ⊢
  cases hruns with
  | whole happends =>
    simp only [Ended.returned_bind]
    rw [copying_closed hfg hf hg]
    exact .whole htwo hij htarget happends hfed
  | part happends hpart =>
    simp only [Ended.returned_bind]
    rw [copying_closed hfg hf hg]
    exact .part htwo hij htarget happends hpart hfed
  | endless => exact .endless htwo hij htarget hfed

theorem copyFile_copies {st : RamFs} {src : Option Str} {i : Fin kMaxInodes} {chunk : UInt32}
    (h : st.Good) (hsrc : st.Names src i) (hpos : 0 < chunk.toNat) (hchunk : chunk.toNat < 2 ^ 31)
    (alloc : Nat → Allocator) (dst : Option Str) :
    Copies alloc chunk.toNat st dst i (copyFile alloc chunk st src dst) := by
  have hcut : ¬RamFs.truncates kOpenRead := by decide
  have hsource : st.openPath src kOpenRead = st.openFd i kOpenRead := by
    rw [RamFs.openPath_eq, RamFs.resolve_names hsrc]
    dsimp only
    rw [RamFs.truncated_eq, if_neg hcut]
  rw [copyFile, hsource]
  cases hfirst : st.allocFd with
  | none =>
    rw [RamFs.openFd_full hfirst]
    exact .noSource hfirst
  | some f =>
    have hfd : st.allocFd ≠ none := by
      rw [hfirst]
      nofun
    have hf : st.fds f = .empty := allocFd_some h hfirst
    rw [RamFs.openFd, hfirst]
    dsimp only
    rw [if_neg (by unfold kFdOffset; omega), RamFs.openPath_eq, RamFs.resolve_setFd]
    cases hres : st.resolve dst copyFlags with
    | none =>
      simp only [Option.map_none]
      rw [if_pos (by decide), close_setFd rfl hf]
      exact .noDestination hfd (RamFs.not_receives hres)
    | some found =>
      obtain ⟨j, st'⟩ := found
      obtain ⟨inode, htarget, hcutState⟩ := RamFs.resolve_target h hres
      simp only [Option.map_some]
      have hopened : (st'.setFd f ⟨true, some i, 0, kOpenRead⟩).truncated j copyFlags =
          (st.setInode j inode).setFd f ⟨true, some i, 0, kOpenRead⟩ := by
        rw [← hcutState]
        rfl
      rw [hopened]
      have hsecond := @RamFs.allocFd_second st f ⟨true, some i, 0, kOpenRead⟩ hfirst rfl
      have hsame : ((st.setInode j inode).setFd f ⟨true, some i, 0, kOpenRead⟩).allocFd =
          (st.setFd f ⟨true, some i, 0, kOpenRead⟩).allocFd := rfl
      rw [← hsame] at hsecond
      obtain ⟨g, hg, hfg, htwo⟩ | ⟨hg, hone⟩ := hsecond
      · rw [RamFs.openFd, hg]
        have hgempty : st.fds g = .empty := by
          refine h.blank g ?_
          have := firstSlot_eq_some hg
          rw [setFd_of_ne hfg.symm] at this
          simpa using this
        exact copies_opened h hpos hchunk hfg hf hgempty htwo htarget
      · rw [RamFs.openFd_full hg]
        dsimp only
        rw [if_pos (by decide), close_setFd rfl (show (st.setInode j inode).fds f = .empty from hf)]
        exact .oneFd hfd hone htarget

namespace RamFs

def HasFile (st : RamFs) (path : Option Str) (bytes : List UInt8) : Prop :=
  ∃ i, st.Names path i ∧ (st.inodes i).bytes = bytes

section Moving

variable {st : RamFs} {src dst path : Option Str} {i j : Fin kMaxInodes} {inode inode' : Inode}
  {bytes : List UInt8}

theorem names_iff (h : st.Namespace) : st.Names path i ↔
    (st.inodes i).used = true ∧ (st.inodes i).isDirectory = false ∧
      normalizePath path nameSize = some (st.inodes i).name := by
  constructor
  · intro hnames
    obtain ⟨normalized, hnormal, _, hfind⟩ := hnames.found
    obtain ⟨hused, rfl⟩ := findInode_some hfind
    exact ⟨hused, hnames.file, hnormal⟩
  · rintro ⟨hused, hfile, hnormal⟩
    refine ⟨⟨_, hnormal, ?_, findInode_of_used h hused⟩, hfile⟩
    intro hroot
    obtain ⟨k, hk, hname, hdir⟩ := h.root
    rw [h.unique i k hused hk (hroot.trans hname.symm), hdir] at hfile
    cases hfile

theorem Names.hasFile_iff {bytes : List UInt8} (h : st.Names path i) :
    st.HasFile path bytes ↔ (st.inodes i).bytes = bytes := by
  constructor
  · rintro ⟨k, hk, hbytes⟩
    rw [h.unique hk]
    exact hbytes
  · exact fun hbytes => ⟨i, h, hbytes⟩

theorem names_congr (h : normalizePath src nameSize = normalizePath dst nameSize) :
    st.Names src i ↔ st.Names dst i :=
  ⟨fun hn => ⟨by rw [← h]; exact hn.found, hn.file⟩, fun hn => ⟨by rw [h]; exact hn.found, hn.file⟩⟩

theorem Target.eq_iff (h : st.Good) (htarget : st.Target dst j inode) (hsrc : st.Names src i) :
    i = j ↔ normalizePath src nameSize = normalizePath dst nameSize := by
  obtain ⟨hused, _, hname⟩ := (names_iff h.tree).1 hsrc
  rw [hname, htarget.name, Option.some.injEq]
  constructor
  · rintro rfl
    exact htarget.same hused
  · intro hsame
    by_contra hij
    exact htarget.other i hij hused hsame

-- What was written over the destination is there, and the source is as before.

theorem Target.names (hafter : (st.setInode j inode').Good) (htarget : st.Target dst j inode)
    (happends : inode.Appends inode' bytes) : (st.setInode j inode').Names dst j := by
  rw [names_iff hafter.tree, setInode_self, happends.used_eq, happends.kind_eq, happends.name_eq]
  exact ⟨htarget.used, htarget.file, htarget.name⟩

theorem Target.hasFile_iff {part : List UInt8} (hafter : (st.setInode j inode').Good)
    (htarget : st.Target dst j inode) (happends : inode.Appends inode' part) :
    (st.setInode j inode').HasFile dst bytes ↔ part = bytes := by
  rw [(htarget.names hafter happends).hasFile_iff, setInode_self, happends.bytes_eq]
  simp [Inode.bytes, htarget.empty]

theorem Target.appends (htarget : st.Target dst j inode) : inode.Appends inode [] :=
  ⟨rfl, rfl, rfl, (List.append_nil _).symm, htarget.sized⟩

theorem names_setInode (h : st.Good) (hafter : (st.setInode j inode').Good) (hij : i ≠ j)
    (hsrc : st.Names src i) : (st.setInode j inode').Names src i := by
  rw [names_iff hafter.tree, setInode_of_ne hij]
  exact (names_iff h.tree).1 hsrc

theorem unlink_open (hnames : st.Names path i) (hopen : st.isOpen i = true) :
    st.unlink path = (-1, st) := by
  obtain ⟨normalized, hnormal, hroot, hfind⟩ := hnames.found
  simp [unlink, hnormal, hfind, hopen]

theorem unlink_closed (hnames : st.Names path i) (hclosed : ¬st.isOpen i = true) :
    ∃ gone : Inode, gone.used = false ∧ st.unlink path = (0, st.setInode i gone) := by
  obtain ⟨normalized, hnormal, hroot, hfind⟩ := hnames.found
  refine ⟨{ Inode.empty with isDirectory := (st.inodes i).isDirectory }, rfl, ?_⟩
  rw [unlink, hnormal]
  dsimp only
  rw [if_neg hroot, hfind]
  dsimp only
  rw [if_neg (by simp [hnames.file]), if_neg hclosed]

-- The bytes of a file that is moved are at one of the two paths.
def Keeps (st : RamFs) (bytes : List UInt8) (src dst : Option Str) : Prop :=
  st.HasFile src bytes ∨ st.HasFile dst bytes

theorem Good.unlink (h : st.Good) (path : Option Str) : (st.unlink path).2.Good :=
  h.call (c := .unlink path) rfl

theorem names_removed_iff {gone : Inode} {k : Fin kMaxInodes} (h : st.Good) (hsrc : st.Names src i)
    (hafter : (st.setInode i gone).Good) (hgone : gone.used = false) :
    (st.setInode i gone).Names path k ↔
      normalizePath src nameSize ≠ normalizePath path nameSize ∧ st.Names path k := by
  obtain ⟨hused, _, hname⟩ := (names_iff h.tree).1 hsrc
  constructor
  · intro hk
    rw [names_iff hafter.tree] at hk
    have hki : k ≠ i := by
      rintro rfl
      rw [setInode_self, hgone] at hk
      cases hk.1
    rw [setInode_of_ne hki, ← names_iff h.tree] at hk
    refine ⟨fun hsame => hki ?_, hk⟩
    exact (names_congr hsame).2 hk |>.unique hsrc
  · rintro ⟨hne, hk⟩
    refine names_setInode h hafter ?_ hk
    rintro rfl
    rw [hname, ((names_iff h.tree).1 hk).2.2] at hne
    exact hne rfl

theorem keeps_unlink_iff (h : st.Good) (hsrc : st.Names src i) :
    (st.unlink src).2.Keeps bytes src dst ↔
      st.isOpen i = true ∧ st.Keeps bytes src dst ∨
        ¬st.isOpen i = true ∧ normalizePath src nameSize ≠ normalizePath dst nameSize ∧
          st.HasFile dst bytes := by
  by_cases hopen : st.isOpen i = true
  · rw [unlink_open hsrc hopen]
    simp [hopen]
  · have hafter := h.unlink src
    obtain ⟨gone, hgone, hunlink⟩ := unlink_closed hsrc hopen
    rw [hunlink] at hafter ⊢
    have hbytes : ∀ {path k}, (st.setInode i gone).Names path k →
        ((st.setInode i gone).inodes k).bytes = (st.inodes k).bytes := by
      intro path k hk
      rw [setInode_of_ne]
      rintro rfl
      rw [names_iff hafter.tree, setInode_self, hgone] at hk
      cases hk.1
    constructor
    · rintro (⟨k, hk, hb⟩ | ⟨k, hk, hb⟩)
      · grind [names_removed_iff]
      · obtain ⟨hne, hnames⟩ := (names_removed_iff h hsrc hafter hgone).1 hk
        rw [hbytes hk] at hb
        exact Or.inr ⟨hopen, hne, k, hnames, hb⟩
    · rintro (⟨hyes, _⟩ | ⟨_, hne, k, hnames, hb⟩)
      · exact absurd hyes hopen
      · have hk := (names_removed_iff h hsrc hafter hgone).2 ⟨hne, hnames⟩
        exact Or.inr ⟨k, hk, by rw [hbytes hk]; exact hb⟩

theorem copyChunks_good {alloc : Nat → Allocator} {chunk : UInt32} {inFd outFd : Int} {rounds k : Nat}
    {ending : CopyEnd} {st' : RamFs} (h : st.Good)
    (hloop : copyChunks alloc chunk inFd outFd rounds k st = .returned (ending, st')) : st'.Good := by
  induction rounds generalizing st k with
  | zero => cases hloop
  | succ rounds ih =>
    simp only [copyChunks, Ended.bind_eq_returned] at hloop
    obtain ⟨⟨n, chunkBytes, mid⟩, hread, hloop⟩ := hloop
    have hmid : mid.Good := h.call (c := .read inFd true chunk) (by rw [RamFs.call, hread]; rfl)
    split_ifs at hloop
    · cases hloop
      exact hmid
    · cases hloop
      exact hmid
    rw [Ended.bind_eq_returned] at hloop
    obtain ⟨⟨w, written⟩, hwrite, hloop⟩ := hloop
    have hwritten := hmid.write hwrite
    grind

theorem copyFile_good {alloc : Nat → Allocator} {chunk : UInt32} {ending : CopyEnd} {st' : RamFs}
    (h : st.Good) (hcopy : copyFile alloc chunk st src dst = .returned (ending, st')) : st'.Good := by
  unfold copyFile at hcopy
  simp only at hcopy
  split_ifs at hcopy
  · cases hcopy
    exact h.openPath _ _
  · cases hcopy
    exact ((h.openPath _ _).openPath _ _).close _
  · rw [Ended.bind_eq_returned] at hcopy
    obtain ⟨⟨ending', mid⟩, hloop, hcopy⟩ := hcopy
    cases hcopy
    exact ((copyChunks_good ((h.openPath _ _).openPath _ _) hloop).close _).close _

end Moving

end RamFs

end Wirth.Kernel.Fs

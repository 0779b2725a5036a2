import Wirth.Kernel.Fs.Moving
import Wirth.Kernel.Shell.Packages

namespace Wirth.Kernel.Shell

open Wirth.Lib Wirth.Kernel.Fs

def kMaxPath : Nat := 64

-- Segments between slashes. Empty ones and `.` are left out, and `..` takes the one before it away.
def pushSegment (segments : List Str) (segment : Str) : Option (List Str) :=
  if segment = [] ∨ segment = lit "." then some segments
  else if segment = lit ".." then some segments.dropLast
  else if 16 ≤ segments.length then none
  else some (segments ++ [segment])

def writeSegment (outSize : Nat) (out segment : Str) : Option Str :=
  if outSize ≤ out.length + segment.length then none else some (out ++ segment)

def writeSegments (outSize : Nat) : List Str → Option Str
  | [] => some rootPath
  | first :: rest => do
      let out ← writeSegment outSize rootPath first
      rest.foldlM (fun out segment =>
        if outSize ≤ out.length + 1 then none else writeSegment outSize (out ++ [slash]) segment) out

def normalizeAbsolutePath (input : Str) (outSize : Nat) : Option Str :=
  match input with
  | [] => none
  | c :: rest =>
      if outSize < 2 ∨ c ≠ slash then none
      else do
        let segments ← (rest.splitOn slash).foldlM pushSegment []
        writeSegments outSize segments

-- Both texts end at their first zero byte. What does not fit the array is cut off.
def resolvePath (cwd input : Str) (outSize : Nat) : Option Str :=
  let cwd := cwd.takeWhile (· ≠ 0)
  let input := input.takeWhile (· ≠ 0)
  if input.head? = some slash then normalizeAbsolutePath (copyText input kMaxPath) outSize
  else if cwd = rootPath then
    normalizeAbsolutePath (slash :: copyText input (kMaxPath - 1)) outSize
  else
    let merged := copyText cwd kMaxPath
    if kMaxPath ≤ merged.length + 1 then none
    else normalizeAbsolutePath
      (merged ++ slash :: copyText input (kMaxPath - merged.length - 1)) outSize

def argToPath (cwd arg : Str) : Option Str := resolvePath cwd arg kMaxPath

def cpText : CopyEnd → Str
  | .noSource => lit "cp: source not found\n"
  | .noDestination => lit "cp: cannot open destination\n"
  | .readError => []
  | .writeError => lit "cp: write error\n"
  | .finished => []

def cp (alloc : Nat → Allocator) (fs : RamFs) (cwd : Str) (argv : List Str) : Ended (Str × RamFs) :=
  match argv with
  | _ :: src :: dst :: _ =>
      match argToPath cwd src, argToPath cwd dst with
      | some src, some dst => do
          let (ending, fs) ← copyFile alloc kFileChunk fs (some src) (some dst)
          .returned (cpText ending, fs)
      | _, _ => .returned (lit "invalid path\n", fs)
  | _ => .returned (lit "cp <src> <dst>\n", fs)

def mv (alloc : Nat → Allocator) (fs : RamFs) (cwd : Str) (argv : List Str) : Ended (Str × RamFs) :=
  match argv with
  | _ :: src :: _ :: _ => do
      let (text, fs) ← cp alloc fs cwd argv
      match argToPath cwd src with
      | none => .returned (text ++ lit "invalid path\n", fs)
      | some src =>
          let (r, fs) := fs.unlink (some src)
          .returned (text ++ if r < 0 then lit "mv: cleanup failed\n" else [], fs)
  | _ => .returned (lit "mv <src> <dst>\n", fs)

end Wirth.Kernel.Shell

namespace Wirth.Kernel

open Wirth.Lib Wirth.Kernel.Fs Wirth.Kernel.Fs.RamFs

-- The same in `kmain64`, which says more and stops earlier.

def fsCopyText : CopyEnd → Str
  | .noSource => lit "cp: source not found\n"
  | .noDestination => lit "cp: cannot create destination\n"
  | .readError => lit "cp: read error\n"
  | .writeError => lit "cp: write error\n"
  | .finished => []

def fsCopyFile (alloc : Nat → Allocator) (fs : RamFs) (src dst : Option Str) :
    Ended (Bool × Str × RamFs) := do
  let (ending, fs) ← copyFile alloc 256 fs src dst
  .returned (ending = .finished, fsCopyText ending, fs)

def fsMoveFile (alloc : Nat → Allocator) (fs : RamFs) (src dst : Option Str) :
    Ended (Bool × Str × RamFs) := do
  let (ok, text, fs) ← fsCopyFile alloc fs src dst
  if ok = false then .returned (false, text, fs)
  else
    let (r, fs) := fs.unlink src
    if r = 0 then .returned (true, text, fs)
    else .returned (false, text ++ lit "mv: could not remove source after copy\n", fs)

-- When a copy that starts comes to its end, and when it is a whole one. It is the heap that decides.

def CopyEnds (alloc : Nat → Allocator) (chunk : Nat) (st : RamFs) (dst : Option Str) (size : Nat) : Prop :=
  st.TwoFree → ∀ capacity, st.Receives dst capacity →
    fed alloc chunk size (2 ^ 32) 0 capacity 0 ≠ .diverges

def CopyComplete (alloc : Nat → Allocator) (chunk : Nat) (st : RamFs) (dst : Option Str) (size : Nat) :
    Prop :=
  st.TwoFree ∧ ∃ capacity, st.Receives dst capacity ∧
    fed alloc chunk size (2 ^ 32) 0 capacity 0 = .returned true

-- `fs_move_file` only has to fear for a file that is moved onto itself: it is emptied when it is
-- opened, and removed unless it is open somewhere else.
def FsMoveKeeps (alloc : Nat → Allocator) (st : RamFs) (src dst : Option Str) (i : Fin kMaxInodes) : Prop :=
  st.allocFd = none ∨
    if normalizePath src nameSize = normalizePath dst nameSize then
      (st.inodes i).size = 0 ∧ (st.isOpen i = true ∨ ¬st.TwoFree)
    else CopyEnds alloc 256 st dst (st.inodes i).size

def MvKeeps (alloc : Nat → Allocator) (st : RamFs) (src dst : Option Str) (i : Fin kMaxInodes) : Prop :=
  if normalizePath src nameSize = normalizePath dst nameSize then
    st.isOpen i = true ∧ (st.allocFd = none ∨ (st.inodes i).size = 0)
  else if st.allocFd = none then st.isOpen i = true ∨ st.HasFile dst (st.inodes i).bytes
  else
    st.isOpen i = true ∧ CopyEnds alloc 128 st dst (st.inodes i).size ∨
      CopyComplete alloc 128 st dst (st.inodes i).size ∨
      ¬st.TwoFree ∧ (∃ capacity, st.Receives dst capacity) ∧ (st.inodes i).size = 0

section Moves

variable {st S : RamFs} {src dst : Option Str} {i : Fin kMaxInodes} {alloc : Nat → Allocator}

theorem fsMoveFile_returned {ending : CopyEnd}
    (h : copyFile alloc 256 st src dst = .returned (ending, S)) :
    ∃ ok text, fsMoveFile alloc st src dst =
      .returned (ok, text, if ending = .finished then (S.unlink src).2 else S) := by
  rw [fsMoveFile, fsCopyFile, h]
  simp only [Ended.returned_bind]
  by_cases hend : ending = .finished
  · rw [if_neg (by simp [hend]), if_pos hend]
    split_ifs
    · exact ⟨_, _, rfl⟩
    · exact ⟨_, _, rfl⟩
  simp [hend]

theorem fsMoveFile_diverges (h : copyFile alloc 256 st src dst = .diverges) :
    fsMoveFile alloc st src dst = .diverges := by
  rw [fsMoveFile, fsCopyFile, h]
  rfl

theorem nil_eq_bytes_iff (h : st.Good) : [] = (st.inodes i).bytes ↔ (st.inodes i).size = 0 := by
  rw [eq_comm, ← List.length_eq_zero_iff, Inode.bytes_length (h.sized i)]

-- The source after something was written over another file, and after it was itself emptied.

variable {chunk : Nat} {cwd : Str} {j : Fin kMaxInodes} {cmd : Str} {size : Nat} {inode : Inode}
  {a b s d : Str} {rest : List Str}

theorem source_kept (h : st.Good) (hsrc : st.Names src i)
    (hij : i ≠ j) (hafter : (st.setInode j inode).Good) :
    (st.setInode j inode).Names src i ∧ (st.setInode j inode).HasFile src (st.inodes i).bytes := by
  have hnames := names_setInode h hafter hij hsrc
  exact ⟨hnames, i, hnames, by rw [setInode_of_ne hij]⟩

theorem source_emptied (h : st.Good) (hsrc : st.Names src i)
    (htarget : st.Target dst i inode) (hafter : (st.setInode i inode).Good) :
    (st.setInode i inode).Names src i ∧
      ((st.setInode i inode).Keeps (st.inodes i).bytes src dst ↔ (st.inodes i).size = 0) := by
  have hsame := (htarget.eq_iff h hsrc).1 rfl
  have hdst := htarget.names hafter htarget.appends
  have hnames := (names_congr hsame).2 hdst
  refine ⟨hnames, ?_⟩
  rw [RamFs.Keeps, hnames.hasFile_iff, ← hdst.hasFile_iff, htarget.hasFile_iff hafter htarget.appends,
    or_self, nil_eq_bytes_iff h]

theorem copyEnds_target {j : Fin kMaxInodes} {inode : Inode}
    (htarget : st.Target dst j inode)
    (hfed : fed alloc chunk size (2 ^ 32) 0 inode.capacity 0 ≠ .diverges) :
    CopyEnds alloc chunk st dst size := by
  intro _ capacity hcapacity
  rw [hcapacity.unique htarget.receives]
  exact hfed

theorem not_copyComplete {j : Fin kMaxInodes} {inode : Inode}
    (htarget : st.Target dst j inode)
    (hfed : fed alloc chunk size (2 ^ 32) 0 inode.capacity 0 ≠ .returned true) :
    ¬CopyComplete alloc chunk st dst size := by
  rintro ⟨_, capacity, hcapacity, hcomplete⟩
  rw [hcapacity.unique htarget.receives] at hcomplete
  exact hfed hcomplete

theorem differs_of_ne (h : st.Good) (hsrc : st.Names src i)
    (hij : i ≠ j) (htarget : st.Target dst j inode) :
    normalizePath src nameSize ≠ normalizePath dst nameSize :=
  fun hsame => hij ((htarget.eq_iff h hsrc).2 hsame)

theorem not_alias (hsrc : st.Names src i) (hnone : ∀ c, ¬st.Receives dst c) :
    normalizePath src nameSize ≠ normalizePath dst nameSize :=
  fun hsame => hnone _ (Or.inl ⟨i, (names_congr hsame).1 hsrc, rfl⟩)

theorem fsMoveFile_keeps_iff (h : st.Good) (hsrc : st.Names src i) (alloc : Nat → Allocator)
    (dst : Option Str) :
    (∃ ok text st', fsMoveFile alloc st src dst = .returned (ok, text, st') ∧
        st'.Keeps (st.inodes i).bytes src dst) ↔ FsMoveKeeps alloc st src dst i := by
  have hcopies : Copies alloc 256 st dst i (copyFile alloc 256 st src dst) :=
    @copyFile_copies st src i 256 h hsrc (by decide) (by decide) alloc dst
  generalize hresult : copyFile alloc 256 st src dst = result at hcopies
  have hkept : ∀ {ending S}, result = .returned (ending, S) →
      ((∃ ok text st', fsMoveFile alloc st src dst = .returned (ok, text, st') ∧
        st'.Keeps (st.inodes i).bytes src dst) ↔
        (if ending = .finished then (S.unlink src).2 else S).Keeps (st.inodes i).bytes src dst) := by
    rintro ending S rfl
    obtain ⟨ok, text, hmove⟩ := fsMoveFile_returned hresult
    simp [hmove]
  unfold FsMoveKeeps
  cases hcopies with
  | noSource hfull =>
    rw [hkept rfl, if_neg (by decide)]
    exact iff_of_true (Or.inl ⟨i, hsrc, rfl⟩) (Or.inl hfull)
  | noDestination hfd hnone =>
    rw [hkept rfl, if_neg (by decide), if_neg (not_alias hsrc hnone)]
    exact iff_of_true (Or.inl ⟨i, hsrc, rfl⟩) (Or.inr fun _ c hc => absurd hc (hnone c))
  | @oneFd j inode hfd hone htarget =>
    have hafter := copyFile_good h hresult
    rw [hkept rfl, if_neg (by decide), or_iff_right hfd]
    by_cases hij : i = j
    · subst hij
      rw [if_pos ((htarget.eq_iff h hsrc).1 rfl), (source_emptied h hsrc htarget hafter).2]
      simp [hone]
    · rw [if_neg (differs_of_ne h hsrc hij htarget)]
      exact iff_of_true (Or.inl (source_kept h hsrc hij hafter).2) fun htwo => absurd htwo hone
  | @ontoItself inode htwo htarget =>
    have hafter := copyFile_good h hresult
    have hsame := (htarget.eq_iff h hsrc).1 rfl
    obtain ⟨hnames, hempty⟩ := source_emptied h hsrc htarget hafter
    rw [hkept rfl, if_pos rfl, or_iff_right htwo.allocFd_ne, if_pos hsame,
      keeps_unlink_iff hafter hnames, hempty]
    simp [isOpen, and_comm, hsame, htwo]
  | @whole j inode inode' htwo hother htarget happends hfed =>
    have hafter := copyFile_good h hresult
    have hdst := (htarget.hasFile_iff hafter happends).2 rfl
    rw [hkept rfl, if_pos rfl, if_neg (differs_of_ne h hsrc hother htarget)]
    refine iff_of_true ?_ (Or.inr (copyEnds_target htarget (by rw [hfed]; simp)))
    rw [keeps_unlink_iff hafter (source_kept h hsrc hother hafter).1]
    by_cases hopen : (st.setInode j inode').isOpen i = true
    · exact Or.inl ⟨hopen, Or.inr hdst⟩
    · exact Or.inr ⟨hopen, differs_of_ne h hsrc hother htarget, hdst⟩
  | @part j inode inode' bytes htwo hother htarget happends hpart hfed =>
    have hafter := copyFile_good h hresult
    rw [hkept rfl, if_neg (by decide), if_neg (differs_of_ne h hsrc hother htarget)]
    exact iff_of_true (Or.inl (source_kept h hsrc hother hafter).2)
      (Or.inr (copyEnds_target htarget (by rw [hfed]; simp)))
  | @endless j inode htwo hother htarget hfed =>
    rw [or_iff_right htwo.allocFd_ne, if_neg (differs_of_ne h hsrc hother htarget)]
    refine iff_of_false ?_ fun hends => hends htwo _ htarget.receives hfed
    rintro ⟨ok, text, st', hmove, _⟩
    rw [fsMoveFile_diverges hresult] at hmove
    cases hmove

theorem mv_returned {ending : CopyEnd}
    (ha : Shell.argToPath cwd a = some s) (hb : Shell.argToPath cwd b = some d)
    (h : copyFile alloc Shell.kFileChunk st (some s) (some d) = .returned (ending, S)) :
    ∃ text, Shell.mv alloc st cwd (cmd :: a :: b :: rest) =
      .returned (text, (S.unlink (some s)).2) := by
  simp [Shell.mv, Shell.cp, ha, hb, h]

theorem mv_diverges (ha : Shell.argToPath cwd a = some s)
    (hb : Shell.argToPath cwd b = some d)
    (h : copyFile alloc Shell.kFileChunk st (some s) (some d) = .diverges) :
    Shell.mv alloc st cwd (cmd :: a :: b :: rest) = .diverges := by
  simp only [Shell.mv, Shell.cp, ha, hb, h]
  rfl

theorem mv_invalid (ha : Shell.argToPath cwd a = some s)
    (hb : Shell.argToPath cwd b = none) : ∃ text, Shell.mv alloc st cwd (cmd :: a :: b :: rest) =
      .returned (text, (st.unlink (some s)).2) := by
  simp [Shell.mv, Shell.cp, ha, hb]

theorem HasFile.receives {bytes : List UInt8} (h : st.HasFile dst bytes) :
    ∃ capacity, st.Receives dst capacity := by
  obtain ⟨j, hj, _⟩ := h
  exact ⟨_, Or.inl ⟨j, hj, rfl⟩⟩

theorem keeps_removed_iff (h : st.Good) (hsrc : st.Names src i) :
    (st.unlink src).2.Keeps (st.inodes i).bytes src dst ↔
      st.isOpen i = true ∨ normalizePath src nameSize ≠ normalizePath dst nameSize ∧
        st.HasFile dst (st.inodes i).bytes := by
  have hkeeps : st.Keeps (st.inodes i).bytes src dst := Or.inl ⟨i, hsrc, rfl⟩
  grind [keeps_unlink_iff]

theorem mvKeeps_unreceived (hsrc : st.Names src i) (hnone : ∀ c, ¬st.Receives dst c) :
    MvKeeps alloc st src dst i ↔ st.isOpen i = true := by
  have hfile : ¬st.HasFile dst (st.inodes i).bytes := fun hf => by
    obtain ⟨c, hc⟩ := HasFile.receives hf
    exact hnone c hc
  have hends : CopyEnds alloc 128 st dst (st.inodes i).size := fun _ c hc => absurd hc (hnone c)
  have hpart : ¬CopyComplete alloc 128 st dst (st.inodes i).size :=
    fun ⟨_, c, hc, _⟩ => hnone c hc
  rw [MvKeeps, if_neg (not_alias hsrc hnone)]
  simp [hfile, hends, hpart, hnone]

theorem mvKeeps_differs (hne : normalizePath src nameSize ≠ normalizePath dst nameSize)
    (hfd : st.allocFd ≠ none) :
    MvKeeps alloc st src dst i ↔
      st.isOpen i = true ∧ CopyEnds alloc 128 st dst (st.inodes i).size ∨
        CopyComplete alloc 128 st dst (st.inodes i).size ∨
        ¬st.TwoFree ∧ (∃ capacity, st.Receives dst capacity) ∧ (st.inodes i).size = 0 := by
  rw [MvKeeps, if_neg hne, if_neg hfd]

theorem mvKeeps_itself (hsame : normalizePath src nameSize = normalizePath dst nameSize)
    (hfd : st.allocFd ≠ none) :
    MvKeeps alloc st src dst i ↔ st.isOpen i = true ∧ (st.inodes i).size = 0 := by
  rw [MvKeeps, if_pos hsame, or_iff_right hfd]

theorem removed_itself_iff (h : st.Good) (hsrc : st.Names src i)
    (htarget : st.Target dst i inode) (hafter : (st.setInode i inode).Good)
    (hfd : st.allocFd ≠ none) :
    ((st.setInode i inode).unlink src).2.Keeps (st.inodes i).bytes src dst ↔
      MvKeeps alloc st src dst i := by
  have hsame := (htarget.eq_iff h hsrc).1 rfl
  obtain ⟨hnames, hempty⟩ := source_emptied h hsrc htarget hafter
  have hopen : (st.setInode i inode).isOpen i = st.isOpen i := rfl
  grind [keeps_unlink_iff, mvKeeps_itself]

theorem removed_other_iff {inode inode' : Inode} {part : List UInt8}
    (h : st.Good) (hsrc : st.Names src i) (hij : i ≠ j) (htarget : st.Target dst j inode)
    (happends : inode.Appends inode' part) (hafter : (st.setInode j inode').Good) :
    ((st.setInode j inode').unlink src).2.Keeps (st.inodes i).bytes src dst ↔
      st.isOpen i = true ∨ part = (st.inodes i).bytes := by
  have hne := differs_of_ne h hsrc hij htarget
  obtain ⟨hnames, _⟩ := source_kept h hsrc hij hafter
  have hbytes : ((st.setInode j inode').inodes i).bytes = (st.inodes i).bytes := by
    rw [setInode_of_ne hij]
  have hopen : (st.setInode j inode').isOpen i = st.isOpen i := rfl
  rw [← hbytes, keeps_removed_iff hafter hnames, hbytes, htarget.hasFile_iff hafter happends, hopen,
    and_iff_right hne]

theorem mv_keeps_iff (h : st.Good)
    (ha : Shell.argToPath cwd a = some s) (hsrc : st.Names (some s) i) (alloc : Nat → Allocator) :
    (∃ text st', Shell.mv alloc st cwd (cmd :: a :: b :: rest) = .returned (text, st') ∧
        st'.Keeps (st.inodes i).bytes (some s) (Shell.argToPath cwd b)) ↔
      MvKeeps alloc st (some s) (Shell.argToPath cwd b) i := by
  have hkept : ∀ {dst : Option Str} {S : RamFs},
      (∃ text, Shell.mv alloc st cwd (cmd :: a :: b :: rest) =
        .returned (text, (S.unlink (some s)).2)) →
      ((∃ text st', Shell.mv alloc st cwd (cmd :: a :: b :: rest) = .returned (text, st') ∧
        st'.Keeps (st.inodes i).bytes (some s) dst) ↔
        (S.unlink (some s)).2.Keeps (st.inodes i).bytes (some s) dst) := by
    rintro dst S ⟨text, hmv⟩
    simp [hmv]
  have hunreceived : ∀ {dst : Option Str}, (∀ c, ¬st.Receives dst c) →
      ((st.unlink (some s)).2.Keeps (st.inodes i).bytes (some s) dst ↔
        MvKeeps alloc st (some s) dst i) := by
    intro dst hnone
    have hfile : ¬st.HasFile dst (st.inodes i).bytes := fun hf => by
      obtain ⟨c, hc⟩ := HasFile.receives hf
      exact hnone c hc
    rw [mvKeeps_unreceived hsrc hnone, keeps_removed_iff h hsrc]
    simp [hfile]
  cases hb : Shell.argToPath cwd b with
  | none =>
    rw [hkept (mv_invalid ha hb)]
    refine hunreceived ?_
    rintro c (⟨j, hj, _⟩ | ⟨⟨normalized, hlacks⟩, _⟩)
    · obtain ⟨_, hnormal, _⟩ := hj.found
      cases hnormal
    · cases hlacks.normal
  | some d =>
    have hcopies : Copies alloc 128 st (some d) i
        (copyFile alloc Shell.kFileChunk st (some s) (some d)) :=
      @copyFile_copies st (some s) i Shell.kFileChunk h hsrc (by decide) (by decide) alloc (some d)
    generalize hresult : copyFile alloc Shell.kFileChunk st (some s) (some d) = result at hcopies
    cases hcopies with
    | noSource hfull =>
      rw [hkept (mv_returned ha hb hresult), keeps_removed_iff h hsrc, MvKeeps]
      grind
    | noDestination hfd hnone =>
      rw [hkept (mv_returned ha hb hresult)]
      exact hunreceived hnone
    | @oneFd j inode hfd hone htarget =>
      have hafter := copyFile_good h hresult
      rw [hkept (mv_returned ha hb hresult)]
      by_cases hij : i = j
      · grind [removed_itself_iff]
      · have hends : CopyEnds alloc 128 st (some d) (st.inodes i).size :=
          fun htwo => absurd htwo hone
        have hpart : ¬CopyComplete alloc 128 st (some d) (st.inodes i).size :=
          fun hcomplete => hone hcomplete.1
        have hreceives : ∃ capacity, st.Receives (some d) capacity := ⟨_, htarget.receives⟩
        rw [removed_other_iff h hsrc hij htarget htarget.appends hafter, nil_eq_bytes_iff h,
          mvKeeps_differs (differs_of_ne h hsrc hij htarget) hfd]
        simp [hone, hends, hpart, hreceives]
    | @ontoItself inode htwo htarget =>
      rw [hkept (mv_returned ha hb hresult)]
      exact removed_itself_iff h hsrc htarget (copyFile_good h hresult) htwo.allocFd_ne
    | @whole j inode inode' htwo hother htarget happends hfed =>
      rw [hkept (mv_returned ha hb hresult),
        removed_other_iff h hsrc hother htarget happends (copyFile_good h hresult),
        mvKeeps_differs (differs_of_ne h hsrc hother htarget) htwo.allocFd_ne]
      exact iff_of_true (Or.inr rfl) (Or.inr (Or.inl ⟨htwo, _, htarget.receives, hfed⟩))
    | @part j inode inode' bytes htwo hother htarget happends hpart hfed =>
      have hends : CopyEnds alloc 128 st (some d) (st.inodes i).size :=
        copyEnds_target htarget (by rw [hfed]; nofun)
      rw [hkept (mv_returned ha hb hresult),
        removed_other_iff h hsrc hother htarget happends (copyFile_good h hresult),
        mvKeeps_differs (differs_of_ne h hsrc hother htarget) htwo.allocFd_ne]
      grind [not_copyComplete]
    | @endless j inode htwo hother htarget hfed =>
      have hends : ¬CopyEnds alloc 128 st (some d) (st.inodes i).size :=
        fun hends => hends htwo _ htarget.receives hfed
      rw [mvKeeps_differs (differs_of_ne h hsrc hother htarget) htwo.allocFd_ne, mv_diverges ha hb hresult]
      grind [not_copyComplete]

end Moves

-- When the bytes of a file that is moved are, in the end, at one of the two paths. Every state that
-- can be reached is good.
theorem moved_data_kept_iff {st : RamFs} (h : st.Good) (alloc : Nat → Allocator) :
    (∀ src dst i, st.Names src i →
      ((∃ ok text st', fsMoveFile alloc st src dst = .returned (ok, text, st') ∧
          st'.Keeps (st.inodes i).bytes src dst) ↔ FsMoveKeeps alloc st src dst i)) ∧
    ∀ cwd cmd a b rest s i, Shell.argToPath cwd a = some s → st.Names (some s) i →
      ((∃ text st', Shell.mv alloc st cwd (cmd :: a :: b :: rest) = .returned (text, st') ∧
          st'.Keeps (st.inodes i).bytes (some s) (Shell.argToPath cwd b)) ↔
        MvKeeps alloc st (some s) (Shell.argToPath cwd b) i) :=
  ⟨fun _ dst _ hsrc => fsMoveFile_keeps_iff h hsrc alloc dst,
    fun _ _ _ _ _ _ _ ha hsrc => mv_keeps_iff h ha hsrc alloc⟩

def greeting : List UInt8 := lit "Hello from ramfs!\n"

-- After `init`, a file is moved to a new name.
theorem greeting_moved : ∃ ok st text st', RamFs.init (fun _ => zeroed) = .returned (ok, st) ∧
    st.Names (some (lit "/test.txt")) secondSlot ∧ (st.inodes secondSlot).bytes = greeting ∧
    Shell.mv (fun _ => zeroed) st (lit "/") [lit "mv", lit "test.txt", lit "t"] =
      .returned (text, st') ∧
    st'.Keeps greeting (some (lit "/test.txt")) (some (lit "/t")) := by
  have hrun : (RamFs.init (fun _ => zeroed) >>= fun p => .returned
      (p.2.findInode (lit "/test.txt") = some secondSlot &&
        !(p.2.inodes secondSlot).isDirectory && (p.2.inodes secondSlot).bytes = greeting &&
        (p.2.inodes secondSlot).size = 18 && p.2.findInode (lit "/t") = none &&
        p.2.parentDirectoryExists (lit "/t") && decide (∃ i, (p.2.inodes i).used = false) &&
        decide (∃ f g, f ≠ g ∧ (p.2.fds f).used = false ∧ (p.2.fds g).used = false))) =
      .returned true := by
    decide +kernel
  simp only [Ended.bind_eq_returned, Ended.returned.injEq, Bool.and_eq_true, decide_eq_true_eq,
    Bool.not_eq_true'] at hrun
  obtain ⟨⟨ok, st⟩, hinit, ⟨⟨⟨⟨⟨⟨hfind, hfile⟩, hbytes⟩, hsize⟩, hnew⟩, hparent⟩, hslot⟩, htwo⟩ := hrun
  have hsrc : st.Names (some (lit "/test.txt")) secondSlot :=
    ⟨⟨lit "/test.txt", by decide +kernel, by decide, hfind⟩, hfile⟩
  have hlacks : st.Lacks (some (lit "/t")) (lit "/t") :=
    ⟨by decide +kernel, by decide, hnew, hparent, hslot⟩
  have hcomplete : CopyComplete (fun _ => zeroed) 128 st (some (lit "/t"))
      (st.inodes secondSlot).size := by
    refine ⟨htwo, 0, Or.inr ⟨⟨_, hlacks⟩, rfl⟩, ?_⟩
    rw [hsize]
    decide +kernel
  have hkeeps : MvKeeps (fun _ => zeroed) st (some (lit "/test.txt")) (some (lit "/t")) secondSlot := by
    rw [mvKeeps_differs (by decide +kernel) (TwoFree.allocFd_ne htwo)]
    exact Or.inr (Or.inl hcomplete)
  obtain ⟨text, st', hmv, hkept⟩ := ((moved_data_kept_iff (init_good hinit) _).2 (lit "/") (lit "mv")
    (lit "test.txt") (lit "t") [] (lit "/test.txt") secondSlot (by decide +kernel) hsrc).2 hkeeps
  rw [hbytes] at hkept
  exact ⟨ok, st, text, st', hinit, hsrc, hbytes, hmv, hkept⟩

-- A file that is moved onto itself is gone, and so is one that is moved to where nothing can be.
theorem moved_data_lost :
    (RamFs.init (fun _ => zeroed) >>= fun p =>
      fsMoveFile (fun _ => zeroed) p.2 (some (lit "/test.txt")) (some (lit "/test.txt")) >>= fun q =>
        Shell.mv (fun _ => zeroed) p.2 (lit "/") [lit "mv", lit "test.txt", lit "/no/t"] >>= fun r =>
          .returned (p.2.node (lit "/test.txt") = some (.file greeting) &&
            q.1 && q.2.2.node (lit "/test.txt") = none &&
            r.1 = lit "cp: cannot open destination\n" && r.2.node (lit "/test.txt") = none &&
            r.2.node (lit "/no/t") = none)) = .returned true := by
  decide +kernel

end Wirth.Kernel

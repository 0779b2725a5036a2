import Wirth.Kernel.Fs.Contents

namespace Wirth.Kernel.Fs

open Wirth.Lib

-- A path that is already normal is taken as it is.

theorem normalizeFrom_normal {outSize : Nat} {out rest : Str} {prevSlash : Bool}
    (htext : 0 ∉ rest) (hprev : prevSlash = true → rest.head? ≠ some slash)
    (hsingle : rest.IsChain fun a b => ¬(a = slash ∧ b = slash))
    (hlength : out.length + rest.length < outSize) :
    normalizeFrom outSize out prevSlash rest = some (out ++ rest) := by
  induction rest generalizing out prevSlash with
  | nil => rw [normalizeFrom, List.append_nil]
  | cons c rest ih =>
    rw [List.mem_cons, not_or] at htext
    obtain ⟨hchain, hlink⟩ := List.isChain_cons.mp hsingle |>.symm
    have hnext : ∀ {prev : Bool}, (prev = true → c = slash) →
        normalizeFrom outSize (out ++ [c]) prev rest = some (out ++ c :: rest) := by
      intro prev hprev'
      have := @ih (out ++ [c]) prev htext.2 (fun hp hhead => hlink _ hhead ⟨hprev' hp, rfl⟩) hchain
        (by grind)
      grind
    rw [normalizeFrom, if_neg (Ne.symm htext.1)]
    by_cases hslash : c = slash
    · grind
    grind

variable {path : Str} {st : RamFs} {inode : Inode} {st' : RamFs}

theorem normalizePath_self (h : NormalPath path) :
    normalizePath (some path) nameSize = some path := by
  obtain ⟨rest, rfl⟩ : ∃ rest, path = slash :: rest := by
    cases path with
    | nil => cases h.absolute
    | cons c rest =>
      have habs := h.absolute
      grind
  obtain ⟨hlink, hchain⟩ := List.isChain_cons.mp h.single
  have hlength := h.length
  rw [List.length_cons] at hlength
  have hfrom := @normalizeFrom_normal nameSize [slash] rest true
    (fun hmem => h.text (List.mem_cons_of_mem _ hmem)) (fun _ hhead => hlink _ hhead ⟨rfl, rfl⟩) hchain
    (by rw [List.length_singleton]; omega)
  rw [normalizePath, if_neg (by decide), if_neg (by simp), hfrom, Option.map_some,
    List.singleton_append, if_neg]
  rintro ⟨hlong, hlast⟩
  rcases h.trailing with htrail | htrail
  · rw [htrail] at hlong
    exact absurd hlong (by decide)
  · exact htrail hlast

def joinPath (directory name : Str) : Str :=
  if directory = rootPath then directory ++ name else directory ++ slash :: name

theorem joinPath_length (directory name : Str) (h : name ≠ []) :
    directory.length < (joinPath directory name).length := by
  have hpos := List.length_pos_iff.mpr h
  grind [joinPath]

theorem parentPath_join (h : NormalPath path) (hroot : path ≠ rootPath) :
    ∃ name, name ≠ [] ∧ slash ∉ name ∧ path = joinPath (parentPath path) name := by
  obtain ⟨name, hname⟩ : ∃ name, name = path.rtakeWhile fun c => c ≠ slash := ⟨_, rfl⟩
  obtain ⟨front, hfront⟩ : ∃ front, front = path.rdropWhile fun c => c ≠ slash := ⟨_, rfl⟩
  have hsplit : path = front ++ name := by
    rw [hfront, hname]
    exact List.rdropWhile_append_rtakeWhile.symm
  have hslash : slash ∉ name := by
    rw [hname]
    intro hmem
    simpa using List.mem_rtakeWhile_imp hmem
  have hhead : slash ∈ path := List.mem_of_head? h.absolute
  have hne : front ≠ [] := by
    intro hempty
    rw [hsplit, hempty, List.nil_append] at hhead
    exact hslash hhead
  obtain ⟨upTo, rfl⟩ : ∃ upTo, front = upTo ++ [slash] := by
    refine ⟨front.dropLast, (List.dropLast_append_getLast? slash ?_).symm⟩
    rw [List.getLast?_eq_some_getLast hne, Option.mem_def, Option.some.injEq]
    subst hfront
    simpa using List.rdropWhile_last_not (fun c => c ≠ slash) path hne
  have hnonempty : name ≠ [] := by
    intro hempty
    rw [hempty, List.append_nil] at hsplit
    rcases h.trailing with htrail | htrail
    · exact hroot htrail
    · rw [hsplit] at htrail
      simp at htrail
  have hparent : parentPath path = if upTo = [] then path.take 1 else upTo := by
    rw [parentPath, ← hfront, List.dropLast_concat]
  refine ⟨name, hnonempty, hslash, ?_⟩
  by_cases hup : upTo = []
  · rw [hup, List.nil_append] at hsplit
    have htake : path.take 1 = rootPath := by
      rw [hsplit]
      rfl
    rw [hparent, if_pos hup, htake, joinPath, if_pos rfl]
    exact hsplit
  · have hother : upTo ≠ rootPath := by
      intro hbad
      have hsingle := h.single
      rw [hsplit, hbad, List.append_assoc] at hsingle
      exact (List.isChain_cons_cons.mp hsingle).1 ⟨rfl, rfl⟩
    rw [hparent, if_neg hup, joinPath, if_neg hother]
    simp [hsplit]

theorem copyText_of_short {text : Str} (h : text.length < nameSize) : copyText text nameSize = text :=
  List.take_of_length_le (by omega)

theorem belowDirectory_some {directory name child : Str} (h : belowDirectory directory name = some child)
    (hchild : child ≠ []) : joinPath directory child = name := by
  unfold belowDirectory at h
  by_cases hroot : directory = rootPath
  · split_ifs at h with hbad
    cases h
    rw [joinPath, if_pos hroot, hroot]
    cases name with
    | nil => exact absurd rfl hchild
    | cons c rest =>
      have hslash : c = slash := by
        by_contra hne
        exact hbad (Or.inl (by simpa using hne))
      rw [hslash]
      rfl
  · split_ifs at h with hlong hprefix
    cases h
    obtain ⟨rest, rfl⟩ := List.isPrefixOf_iff_prefix.mp hprefix
    rw [joinPath, if_neg hroot, List.drop_left' (by simp), List.append_assoc, List.singleton_append]

theorem directoryEntry_some {directory : Str} {inode : Inode} {e : DirEntry}
    (hnormal : NormalPath inode.name) (h : directoryEntry directory inode = some e) :
    inode.used = true ∧ e.isDirectory = inode.isDirectory ∧ e.name ≠ [] ∧
      joinPath directory e.name = inode.name := by
  unfold directoryEntry at h
  split_ifs at h with hskip
  rw [not_or] at hskip
  split at h
  · cases h
  rename_i child hbelow
  split_ifs at h with hbad
  rw [not_or] at hbad
  cases h
  have hjoin := belowDirectory_some hbelow hbad.1
  have hshort : child.length < nameSize := by
    have hlast : child.length ≤ inode.name.length := by
      rw [← hjoin, joinPath]
      split_ifs
      · rw [List.length_append]
        omega
      · grind
    exact Nat.lt_of_le_of_lt hlast hnormal.length
  simp [copyText_of_short, hshort, hskip, hbad, hjoin]

theorem directoryEntry_child (hused : inode.used) (hnormal : NormalPath inode.name)
    (hroot : inode.name ≠ rootPath) :
    ∃ e, directoryEntry (parentPath inode.name) inode = some e ∧ e.isDirectory = inode.isDirectory ∧
      joinPath (parentPath inode.name) e.name = inode.name := by
  obtain ⟨name, hname, hslash, hjoin⟩ := parentPath_join hnormal hroot
  have hlength := joinPath_length (parentPath inode.name) name hname
  rw [← hjoin] at hlength
  have hself : inode.name ≠ parentPath inode.name := by
    intro he
    rw [← he] at hlength
    omega
  have hbound := hnormal.length
  have hbelow : belowDirectory (parentPath inode.name) inode.name = some name := by
    unfold belowDirectory
    by_cases hp : parentPath inode.name = rootPath
    · rw [joinPath, if_pos hp, hp] at hjoin
      rw [if_pos hp, if_neg, hjoin]
      · rfl
      grind [rootPath]
    · rw [joinPath, if_neg hp] at hjoin
      have hshape : inode.name = (parentPath inode.name ++ [slash]) ++ name := by
        rw [List.append_assoc, List.singleton_append]
        exact hjoin
      have hdrop : inode.name.drop ((parentPath inode.name).length + 1) = name := by
        have := congrArg (List.drop ((parentPath inode.name).length + 1)) hshape
        rwa [List.drop_left' (by simp)] at this
      grind
  have hshort : name.length < nameSize := by
    have : name.length ≤ inode.name.length := by
      have := congrArg List.length hjoin
      unfold joinPath at this
      split_ifs at this
      · rw [List.length_append] at this
        omega
      · grind
    omega
  refine ⟨⟨name, inode.isDirectory⟩, ?_, rfl, hjoin.symm⟩
  rw [directoryEntry, if_neg (by rw [not_or]; exact ⟨by simp [hused], hself⟩), hbelow]
  simp only
  rw [if_neg (by rw [not_or]; exact ⟨hname, hslash⟩), copyText_of_short hshort]

inductive Node where
  | directory
  | file (bytes : List UInt8)
  deriving DecidableEq

def Inode.bytes (inode : Inode) : List UInt8 := (inode.data.getD []).take inode.size

def Inode.node (inode : Inode) : Node := if inode.isDirectory then .directory else .file inode.bytes

def RamFs.node (st : RamFs) (path : Str) : Option Node :=
  (st.findInode path).map fun i => (st.inodes i).node

-- What holds in every state: the names form a tree, buffers have their sizes, and descriptors
-- that are not in use are blank.
structure RamFs.Good (st : RamFs) : Prop where
  tree : st.Namespace
  sized : ∀ i, (st.inodes i).WellSized
  offsets : ∀ f, (st.fds f).offset < 2 ^ 32
  blank : ∀ f, (st.fds f).used = false → st.fds f = .empty

theorem findInode_of_used (h : st.Namespace) {i : Fin kMaxInodes}
    (hused : (st.inodes i).used) : st.findInode (st.inodes i).name = some i := by
  refine firstSlot_of_unique (by simp [hused]) fun j hj => ?_
  simp only [Bool.and_eq_true, decide_eq_true_eq] at hj
  exact h.unique j i hj.1 hused hj.2

theorem node_of_used (h : st.Namespace) {i : Fin kMaxInodes} (hused : (st.inodes i).used) :
    st.node (st.inodes i).name = some (st.inodes i).node := by
  rw [RamFs.node, findInode_of_used h hused, Option.map_some]

theorem Changes.blank {fits : Nat → Nat → Nat → Prop} {st st' : RamFs} {es : List Effect}
    (h : ∀ f, (st.fds f).used = false → st.fds f = .empty) (hchanges : Changes fits st st' es) :
    ∀ f, (st'.fds f).used = false → st'.fds f = .empty := by
  induction hchanges with
  | refl => exact h
  | step _ hchange ih =>
    cases hchange with
    | descriptor f desc _ hused =>
      grind [setFd_self, setFd_of_ne]
    | _ => exact ih

theorem RamFs.Good.changes {st st' : RamFs} {es : List Effect} (h : st.Good) (htree : st'.Namespace)
    (hchanges : Changes (fun _ _ _ => True) st st' es) : st'.Good := by
  have hcontents : st.Contents [] := ⟨h.sized, h.offsets, fun _ _ _ _ _ hv => by cases hv⟩
  have hafter := hchanges.contents hcontents
  exact ⟨htree, hafter.sized, hafter.offsets, hchanges.blank h.blank⟩

theorem RamFs.Good.call {c : Call} {r : Int} (h : st.Good)
    (hcall : st.call c = .returned (r, st')) : st'.Good := by
  have hfits : st.writeFits (fun _ _ _ => True) c := by
    cases c with
    | write alloc fd buf count => exact fun _ _ _ _ => trivial
    | _ => trivial
  exact h.changes ((call_edits h.tree hcall).namespace h.tree)
    (call_changes h.tree h.sized h.offsets hfits hcall)

theorem RamFs.Good.openPath (h : st.Good) (path : Option Str) (flags : UInt32) :
    (st.openPath path flags).2.Good := h.call (c := .openPath path flags) rfl

theorem RamFs.Good.close (h : st.Good) (fd : Int) : (st.close fd).2.Good :=
  h.call (c := .close fd) rfl

theorem RamFs.Good.md (h : st.Good) (path : Option Str) : (st.md path).2.Good :=
  h.call (c := .md path) rfl

theorem RamFs.Good.write {alloc : Allocator} {fd r : Int}
    {buf : Option (Nat → UInt8)} {count : UInt32} (h : st.Good)
    (hwrite : st.write alloc fd buf count = .returned (r, st')) : st'.Good :=
  h.call (c := .write alloc fd buf count) hwrite

theorem init_good {alloc : Nat → Allocator} {ok : Bool} {st : RamFs}
    (h : RamFs.init alloc = .returned (ok, st)) : st.Good := by
  have hchanges : Changes (fun _ _ _ => True) .cleared st (RamFs.initEffects alloc) :=
    plantAll_changes (initSeeds_fit fun _ _ => trivial) h
  have hcontents := hchanges.contents cleared_contents
  exact ⟨init_namespace h, hcontents.sized, hcontents.offsets, hchanges.blank fun _ _ => rfl⟩

theorem reachable_good (h : Reachable st) : st.Good := by
  induction h with
  | init h => exact init_good h
  | call _ h ih => exact ih.call h

def RamFs.entries (st : RamFs) (directory : Str) : List DirEntry :=
  (List.finRange kMaxInodes).filterMap fun j => directoryEntry directory (st.inodes j)

section Reading

variable {st : RamFs} {i : Fin kMaxInodes}

theorem readdir_directory (h : st.Namespace) (hused : (st.inodes i).used)
    (hdir : (st.inodes i).isDirectory) : st.readdir (some (st.inodes i).name) true 64 =
      (((st.entries (st.inodes i).name).length : Int), st.entries (st.inodes i).name) := by
  have hlength : (st.entries (st.inodes i).name).length ≤ 64 := by
    refine (List.length_filterMap_le _ _).trans ?_
    exact le_refl _
  rw [RamFs.readdir, if_neg (by decide), normalizePath_self (h.normal i hused)]
  simp only [findInode_of_used h hused]
  rw [if_neg (by simp [hdir]), show (64 : UInt32).toNat = 64 from rfl]
  change (int32 ((st.entries _).take 64).length, (st.entries _).take 64) = _
  grind [List.take_of_length_le, int32_of_lt]

theorem mem_entries (h : st.Namespace) {directory : Str} {e : DirEntry}
    (he : e ∈ st.entries directory) : ∃ j, (st.inodes j).used ∧
      e.isDirectory = (st.inodes j).isDirectory ∧ e.name ≠ [] ∧
      joinPath directory e.name = (st.inodes j).name := by
  obtain ⟨j, _, hj⟩ := List.mem_filterMap.mp he
  have hused : (st.inodes j).used = true := by
    by_contra hfree
    rw [directoryEntry, if_pos (Or.inl (by simpa using hfree))] at hj
    cases hj
  exact ⟨j, directoryEntry_some (h.normal j hused) hj⟩

theorem openPath_file (h : st.Namespace) (hused : (st.inodes i).used)
    (hfile : (st.inodes i).isDirectory = false) :
    st.openPath (some (st.inodes i).name) kOpenRead = match st.allocFd with
      | none => (-1, st)
      | some f => (f.val + kFdOffset, st.setFd f ⟨true, some i, 0, kOpenRead⟩) := by
  have hroot : (st.inodes i).name ≠ rootPath := by
    intro hname
    obtain ⟨j, hj, hjname, hdir⟩ := h.root
    have hij := h.unique i j hused hj (hname.trans hjname.symm)
    rw [hij, hdir] at hfile
    cases hfile
  have hkeep : st.truncated i kOpenRead = st := by
    rw [RamFs.truncated, if_neg (by decide)]
  rw [RamFs.openPath, normalizePath_self (h.normal i hused)]
  simp only
  rw [if_neg hroot]
  simp only [findInode_of_used h hused]
  rw [RamFs.openInode, if_neg (by simp [hfile]), hkeep]
  grind [RamFs.openFd]

theorem allocFd_some (h : st.Good) {f : Fin kMaxFds} (hf : st.allocFd = some f) : st.fds f = .empty :=
  h.blank f (by simpa using firstSlot_eq_some hf)

variable {f : Fin kMaxFds} {o : Nat}

theorem getFd_used (hused : (st.fds f).used = true) :
    st.getFd (f.val + kFdOffset) = some f := by
  simp [RamFs.getFd, hused]

theorem setFd_setFd {desc desc' : FileDescriptor} :
    (st.setFd f desc).setFd f desc' = st.setFd f desc' := by
  simp [RamFs.setFd]

theorem close_used (hused : (st.fds f).used = true) :
    (st.close (f.val + kFdOffset)).2 = st.setFd f .empty := by
  rw [RamFs.close, getFd_used hused]

theorem close_setFd {f : Fin kMaxFds} {desc : FileDescriptor} (hused : desc.used = true)
    (hempty : st.fds f = .empty) : ((st.setFd f desc).close (f.val + kFdOffset)).2 = st := by
  rw [close_used (by rw [setFd_self]; exact hused), setFd_setFd, ← hempty]
  simp [RamFs.setFd]

theorem read_next {flags count : UInt32}
    (hdesc : st.fds f = ⟨true, some i, o, flags⟩) (hflags : flags &&& kOpenRead ≠ 0)
    (hsized : (st.inodes i).WellSized) (hcount : count.toNat < 2 ^ 31) :
    st.read (f.val + kFdOffset) true count =
      .returned ((((st.inodes i).bytes.drop o).take count.toNat).length,
        ((st.inodes i).bytes.drop o).take count.toNat,
        st.setFd f ⟨true, some i, o + (((st.inodes i).bytes.drop o).take count.toNat).length,
          flags⟩) := by
  have hsize := hsized.size_le
  have hbuffer := hsized.buffer
  have hlength : (((st.inodes i).bytes.drop o).take count.toNat).length =
      min count.toNat ((st.inodes i).size - o) := by
    rw [List.length_take, List.length_drop, Inode.bytes, List.length_take]
    omega
  rw [RamFs.read, if_neg (by decide), getFd_used (by rw [hdesc])]
  simp only [hdesc]
  rw [if_neg hflags, hlength]
  by_cases hend : (st.inodes i).size ≤ o
  · have hempty : ((st.inodes i).bytes.drop o).take count.toNat = [] := by
      refine List.length_eq_zero_iff.mp ?_
      omega
    rw [if_pos hend, hempty, Nat.sub_eq_zero_of_le hend, Nat.min_zero, Nat.add_zero, ← hdesc]
    simp [RamFs.setFd]
  · have hload : loadBytes (st.inodes i).data o (min count.toNat ((st.inodes i).size - o)) =
        .returned (((st.inodes i).bytes.drop o).take count.toNat) := by
      have hbytes : ((st.inodes i).bytes.drop o).take count.toNat =
          (((st.inodes i).data.getD []).drop o).take (min count.toNat ((st.inodes i).size - o)) := by
        rw [Inode.bytes, List.drop_take, List.take_take]
      rw [loadBytes.eq_def, hbytes]
      by_cases hnone : min count.toNat ((st.inodes i).size - o) = 0
      · rw [if_pos hnone, hnone, List.take_zero]
      cases hdata : (st.inodes i).data with
      | none =>
        grind
      | some buffer =>
        grind
    grind [Ended.returned_bind, int32_of_lt]

theorem read_setFd (hsized : (st.inodes i).WellSized) :
    (st.setFd f ⟨true, some i, o, kOpenRead⟩).read (f.val + kFdOffset) true 512 =
      .returned ((((st.inodes i).bytes.drop o).take 512).length,
        ((st.inodes i).bytes.drop o).take 512,
        st.setFd f ⟨true, some i, o + (((st.inodes i).bytes.drop o).take 512).length, kOpenRead⟩) := by
  have hnext := @read_next (st.setFd f ⟨true, some i, o, kOpenRead⟩) i f o kOpenRead 512 setFd_self
    (by decide) hsized (by decide)
  rw [setFd_setFd] at hnext
  exact hnext

end Reading

end Wirth.Kernel.Fs

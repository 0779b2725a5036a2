import Wirth.Kernel.Fs.Files

namespace Wirth.Kernel.Fs

open Wirth.Lib

def components (path : Str) : List Str := (path.splitOn slash).filter fun c => c ≠ []

section Components

theorem components_append (front back : Str) :
    components (front ++ slash :: back) = components front ++ components back := by
  rw [components, List.splitOn, List.splitOnP_append_cons front back (by simp), List.filter_append]
  rfl

theorem components_slash (rest : Str) : components (slash :: rest) = components rest :=
  components_append [] rest

theorem components_name {name : Str} (hname : name ≠ []) (hslash : slash ∉ name) :
    components name = [name] := by
  grind [components, List.splitOn_eq_singleton]

theorem components_join (directory : Str) {name : Str} (hname : name ≠ []) (hslash : slash ∉ name) :
    components (joinPath directory name) = components directory ++ [name] := by
  unfold joinPath
  by_cases hroot : directory = rootPath
  · rw [if_pos hroot, hroot]
    exact (components_append [] name).trans (by rw [components_name hname hslash]; rfl)
  · rw [if_neg hroot, components_append, components_name hname hslash]

theorem components_root : components rootPath = [] := rfl

theorem NormalPath.front {front rest : Str} (h : NormalPath (front ++ slash :: rest))
    (hne : front ≠ []) : NormalPath front := by
  obtain ⟨hchain, _, hlink⟩ := List.isChain_append.mp h.single
  refine ⟨?_, hchain, .inr ?_, ?_, ?_⟩
  · rw [← h.absolute, List.head?_append_of_ne_nil _ hne]
  · grind
  · have hlength := h.length
    rw [List.length_append] at hlength
    omega
  · intro hmem
    exact h.text (List.mem_append_left _ hmem)

theorem parentPath_normal {path : Str} (h : NormalPath path) : NormalPath (parentPath path) := by
  by_cases hparent : parentPath path = rootPath
  · rw [hparent]
    decide
  obtain ⟨rest, hrest⟩ := List.isPrefixOf_iff_prefix.mp ( parentPath_prefix h hparent)
  rw [List.append_assoc, List.singleton_append] at hrest
  have hne : parentPath path ≠ [] := by
    have habs := h.absolute
    unfold parentPath
    dsimp only
    split_ifs with hup
    · cases path with
      | nil => cases habs
      | cons c rest => exact List.cons_ne_nil _ _
    · exact hup
  have hpath : NormalPath (parentPath path ++ slash :: rest) := by
    rw [hrest]
    exact h
  exact hpath.front hne

theorem components_injective {path other : Str} (h : NormalPath path) (hother : NormalPath other)
    (heq : components path = components other) : path = other := by
  have hsome : ∀ {p : Str}, NormalPath p → p ≠ rootPath → components p ≠ [] := by
    intro p hp hroot hempty
    obtain ⟨name, hname, hslash, hjoin⟩ := parentPath_join hp hroot
    rw [hjoin, components_join _ hname hslash] at hempty
    exact absurd hempty (by simp)
  induction hlength : path.length using Nat.strong_induction_on generalizing path other with
  | h n ih =>
    by_cases hroot : path = rootPath
    · grind [components_root]
    by_cases hotherRoot : other = rootPath
    · grind [components_root]
    -- both are their parents with one more name, and the parents are shorter
    obtain ⟨name, hname, hslash, hjoin⟩ := parentPath_join h hroot
    obtain ⟨name', hname', hslash', hjoin'⟩ := parentPath_join hother hotherRoot
    have hshorter := joinPath_length (parentPath path) name hname
    rw [hjoin, hjoin', components_join _ hname hslash, components_join _ hname' hslash'] at heq
    grind [List.append_inj', parentPath_normal]

end Components

-- The inode is a child of the directory if one more name leads to it.
def childEntry (directory : Str) (inode : Inode) : Option DirEntry :=
  match (components inode.name).getLast? with
  | none => none
  | some name =>
      if inode.used ∧ components inode.name = components directory ++ [name] then
        some ⟨name, inode.isDirectory⟩
      else none

section Entries

variable {directory : Str} {inode : Inode} {e : DirEntry}

theorem childEntry_eq_some :
    childEntry directory inode = some e ↔ inode.used = true ∧
      components inode.name = components directory ++ [e.name] ∧ e.isDirectory = inode.isDirectory := by
  unfold childEntry
  constructor
  · grind
  · rintro ⟨hused, hchild, hkind⟩
    have hlast : (components inode.name).getLast? = some e.name := by
      rw [hchild, List.getLast?_concat]
    rw [hlast]
    dsimp only
    rw [if_pos ⟨hused, hchild⟩, ← hkind]

theorem directoryEntry_slash
    (h : directoryEntry directory inode = some e) : slash ∉ e.name := by
  unfold directoryEntry at h
  split_ifs at h
  split at h
  · cases h
  split_ifs at h with hbad
  cases h
  intro hmem
  exact hbad (.inr (List.mem_of_mem_take hmem))

theorem directoryEntry_eq_childEntry (hdir : NormalPath directory)
    (hnormal : inode.used = true → NormalPath inode.name) :
    directoryEntry directory inode = childEntry directory inode := by
  apply Option.ext
  intro e
  rw [childEntry_eq_some]
  constructor
  · intro h
    have hused : inode.used = true := by
      by_contra hfree
      rw [directoryEntry, if_pos (.inl (Bool.eq_false_iff.mpr hfree))] at h
      cases h
    obtain ⟨_, hkind, hname, hjoin⟩ := directoryEntry_some (hnormal hused) h
    grind [components_join, directoryEntry_slash]
  · rintro ⟨hused, hchild, hkind⟩
    have hroot : inode.name ≠ rootPath := by
      intro hroot
      rw [hroot, components_root] at hchild
      exact absurd hchild.symm (by simp)
    obtain ⟨found, hfound, hkind', hjoin⟩ := directoryEntry_child hused (hnormal hused) hroot
    obtain ⟨_, _, hname, _⟩ := directoryEntry_some (hnormal hused) hfound
    have hcomponents := components_join (parentPath inode.name) hname (directoryEntry_slash hfound)
    rw [hjoin, hchild] at hcomponents
    obtain ⟨hparents, hnames⟩ := List.append_inj' hcomponents rfl
    have hparent := components_injective hdir (parentPath_normal (hnormal hused)) hparents
    have hentry : found = e := by
      cases found
      cases e
      rw [DirEntry.mk.injEq]
      exact ⟨(List.cons.inj hnames).1.symm, hkind'.trans hkind.symm⟩
    rw [hparent, hfound, hentry]

end Entries

namespace RamFs

variable {st : RamFs} {directory : Str}

def IsDirectory (st : RamFs) (path : Str) : Prop :=
  ∃ i, (st.inodes i).used = true ∧ (st.inodes i).name = path ∧ (st.inodes i).isDirectory = true

def children (st : RamFs) (directory : Str) : List DirEntry :=
  (List.finRange kMaxInodes).filterMap fun j => childEntry directory (st.inodes j)

section Listing

theorem entries_eq_children (h : st.Namespace) (hdir : NormalPath directory) :
    st.entries directory = st.children directory := by
  unfold entries children
  congr 1
  funext j
  exact directoryEntry_eq_childEntry hdir (h.normal j)

theorem children_length_le (st : RamFs) (directory : Str) : (st.children directory).length ≤ 64 := by
  refine (List.length_filterMap_le _ _).trans ?_
  exact le_refl _

theorem children_nodup (h : st.Namespace) (directory : Str) :
    ((st.children directory).map DirEntry.name).Nodup := by
  rw [children, List.map_filterMap]
  apply (List.nodup_finRange kMaxInodes).filterMap
  intro j k name hj hk
  obtain ⟨e, he, hname⟩ := Option.map_eq_some_iff.mp hj
  obtain ⟨e', he', hname'⟩ := Option.map_eq_some_iff.mp hk
  obtain ⟨hused, hchild, _⟩ := childEntry_eq_some.mp he
  obtain ⟨hused', hchild', _⟩ := childEntry_eq_some.mp he'
  apply h.unique j k hused hused'
  apply components_injective (h.normal j hused) (h.normal k hused')
  rw [hchild, hchild', hname, hname']

theorem readdir_missing {path : Option Str} (hpath : normalizePath path nameSize = some directory)
    (hnone : ¬st.IsDirectory directory) (maxEntries : UInt32) :
    (st.readdir path true maxEntries).1 = -1 := by
  unfold readdir
  by_cases hmax : true = false ∨ maxEntries = 0
  · rw [if_pos hmax]
  rw [if_neg hmax, hpath]
  dsimp only
  cases hfind : st.findInode directory with
  | none => rfl
  | some i =>
    obtain ⟨hused, hname⟩ := findInode_some hfind
    have hfile : (st.inodes i).isDirectory = false := by
      by_contra hdir
      exact hnone ⟨i, hused, hname, by simpa using hdir⟩
    dsimp only
    rw [if_pos hfile]

theorem readdir_listed (h : st.Namespace) {path : Option Str}
    (hpath : normalizePath path nameSize = some directory) (hdir : st.IsDirectory directory)
    {maxEntries : UInt32} (hmax : maxEntries ≠ 0) :
    st.readdir path true maxEntries =
      ((((st.children directory).take maxEntries.toNat).length : Int),
        (st.children directory).take maxEntries.toNat) := by
  obtain ⟨i, hused, rfl, hkind⟩ := hdir
  have hlength : ((st.children (st.inodes i).name).take maxEntries.toNat).length ≤ 64 :=
    (List.length_take_le' _ _).trans (children_length_le st _)
  unfold readdir
  rw [if_neg (by simp [hmax]), hpath]
  dsimp only
  rw [findInode_of_used h hused]
  dsimp only
  rw [if_neg (by simp [hkind])]
  change (int32 ((st.entries _).take maxEntries.toNat).length, (st.entries _).take maxEntries.toNat) = _
  rw [entries_eq_children h (h.normal i hused), int32_of_lt (by omega)]

-- What `readdir` returns, for every path that can be normalised.
theorem readdir_exact {st : RamFs} (h : Reachable st) {path : Option Str} {directory : Str}
    (hpath : normalizePath path nameSize = some directory) (maxEntries : UInt32) :
    ((st.readdir path true maxEntries).1 = -1 ↔ ¬st.IsDirectory directory ∨ maxEntries = 0) ∧
    (st.IsDirectory directory → maxEntries ≠ 0 → st.readdir path true maxEntries =
      ((((st.children directory).take maxEntries.toNat).length : Int),
        (st.children directory).take maxEntries.toNat)) ∧
    ((st.children directory).map DirEntry.name).Nodup := by
  have htree := reachable_namespace h
  refine ⟨⟨?_, ?_⟩, fun hdir hmax => readdir_listed htree hpath hdir hmax,
    children_nodup htree directory⟩
  · intro hfailed
    by_contra hnot
    obtain ⟨hdir, hmax⟩ := not_or.mp hnot
    rw [readdir_listed htree hpath (not_not.mp hdir) hmax] at hfailed
    dsimp only at hfailed
    omega
  · rintro (hnone | rfl)
    · exact readdir_missing hpath hnone maxEntries
    · rfl

theorem readdir_exact_share : ∃ st, Reachable st ∧
    st.readdir (some (lit "/usr//share/")) true 16 = (1, [⟨lit "doc", true⟩]) := by
  have hrun : (RamFs.init (fun _ => zeroed) >>= fun p => .returned
      ((p.2.findInode (lit "/usr/share")).map fun i => (p.2.inodes i).isDirectory,
        p.2.children (lit "/usr/share"))) = .returned (some true, [⟨lit "doc", true⟩]) := by
    decide +kernel
  rw [Ended.bind_eq_returned] at hrun
  obtain ⟨⟨ok, st⟩, hinit, hrun⟩ := hrun
  rw [Ended.returned.injEq, Prod.mk.injEq] at hrun
  obtain ⟨hfind, hchildren⟩ := hrun
  obtain ⟨i, hi, hkind⟩ := Option.map_eq_some_iff.mp hfind
  obtain ⟨hused, hname⟩ := findInode_some hi
  refine ⟨st, .init hinit, ?_⟩
  rw [(readdir_exact (.init hinit) (by decide +kernel) 16).2.1 ⟨i, hused, hname, hkind⟩ (by decide)]
  rw [hchildren]
  rfl

end Listing

end RamFs

end Wirth.Kernel.Fs

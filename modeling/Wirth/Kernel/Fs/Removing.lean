import Wirth.Kernel.Fs.Canonical

namespace Wirth.Kernel.Fs

open Wirth.Lib

-- The path leads to a directory that has no children and is not the root.
def RamFs.Removable (st : RamFs) (path : Option Str) (i : Fin kMaxInodes) : Prop :=
  normalizePath path nameSize = some (st.inodes i).name ∧ (st.inodes i).name ≠ rootPath ∧
    (st.inodes i).used = true ∧ (st.inodes i).isDirectory = true ∧ st.children (st.inodes i).name = []

-- Such a directory is removed and nothing else, and otherwise nothing happens.
def RamFs.RemovesExactly (st : RamFs) (path : Option Str) : Prop :=
  (∀ i, st.Removable path i → st.rd path = (0, st.setInode i .empty)) ∧
    ((∀ i, ¬st.Removable path i) → st.rd path = (-1, st))

section Below

variable {st : RamFs} {directory : Str} {j : Fin kMaxInodes}

theorem parent_components (h : st.Namespace) (hused : (st.inodes j).used = true) {init : List Str}
    {last : Str} (hnames : components (st.inodes j).name = init ++ [last]) :
    components (parentPath (st.inodes j).name) = init ∧
      (st.inodes j).name = joinPath (parentPath (st.inodes j).name) last ∧
      (st.inodes j).name ≠ rootPath := by
  have hroot : (st.inodes j).name ≠ rootPath := by
    intro hroot
    rw [hroot, components_root] at hnames
    exact absurd hnames.symm (by simp)
  obtain ⟨name, hname, hslash, hjoin⟩ := parentPath_join (h.normal j hused) hroot
  have hjoined := components_join (parentPath (st.inodes j).name) hname hslash
  rw [← hjoin, hnames] at hjoined
  obtain ⟨hinit, hlast⟩ := List.append_inj' hjoined rfl
  rw [(List.cons.inj hlast).1]
  exact ⟨hinit.symm, hjoin, hroot⟩

-- The way down to what lies below a directory goes through one of its children.
theorem exists_child (h : st.Namespace) {below : List Str} (hbelow : below ≠ [])
    (hused : (st.inodes j).used = true)
    (hnames : components (st.inodes j).name = components directory ++ below) :
    st.children directory ≠ [] := by
  induction below using List.reverseRecOn generalizing j with
  | nil => exact absurd rfl hbelow
  | append_singleton init last ih =>
    by_cases hinit : init = []
    · subst hinit
      have hchild : childEntry directory (st.inodes j) = some ⟨last, (st.inodes j).isDirectory⟩ :=
        childEntry_eq_some.mpr ⟨hused, hnames, rfl⟩
      exact List.ne_nil_of_mem (List.mem_filterMap.mpr ⟨j, List.mem_finRange j, hchild⟩)
    · rw [← List.append_assoc] at hnames
      obtain ⟨hparent, _, hroot⟩ := parent_components h hused hnames
      obtain ⟨k, hk, _, hkname⟩ := h.parent j hused hroot
      exact ih hinit hk (by rw [hkname, hparent])

theorem hasEntries_iff (h : st.Namespace) (hdirectory : NormalPath directory)
    (hroot : directory ≠ rootPath) : st.hasEntries directory = true ↔ st.children directory ≠ [] := by
  constructor
  · intro hentries
    obtain ⟨j, hj⟩ := Option.isSome_iff_exists.mp hentries
    have hfound := firstSlot_eq_some hj
    simp only [Bool.and_eq_true, decide_eq_true_eq] at hfound
    obtain ⟨⟨hused, hother⟩, hbelow⟩ := hfound
    obtain ⟨rest, hrest⟩ := List.isPrefixOf_iff_prefix.mp hbelow
    rw [List.append_assoc, List.singleton_append] at hrest
    have hnames := components_append directory rest
    rw [hrest] at hnames
    refine exists_child h (fun hnone => hother ?_) hused hnames
    rw [hnone, List.append_nil] at hnames
    exact components_injective (h.normal j hused) hdirectory hnames
  · intro hsome
    by_contra hnone
    obtain ⟨e, he⟩ := List.exists_mem_of_ne_nil _ hsome
    obtain ⟨j, _, hchild⟩ := List.mem_filterMap.mp he
    obtain ⟨hused, hnames, _⟩ := childEntry_eq_some.mp hchild
    obtain ⟨hparent, hjoin, _⟩ := parent_components h hused hnames
    have hsame := components_injective (parentPath_normal (h.normal j hused)) hdirectory hparent
    rw [hsame, joinPath, if_neg hroot] at hjoin
    have hbelow := hasEntries_false hnone j hused (by rw [hjoin]; simp)
    rw [hjoin, ← List.singleton_append, ← List.append_assoc] at hbelow
    exact absurd hbelow (by simp [List.isPrefixOf_iff_prefix])

theorem not_isOpen (h : st.Namespace) {i : Fin kMaxInodes} (hdir : (st.inodes i).isDirectory = true) :
    st.isOpen i = false := by
  by_contra hopen
  obtain ⟨f, hf⟩ := Option.isSome_iff_exists.mp (Bool.eq_true_of_not_eq_false hopen)
  have hfound := firstSlot_eq_some hf
  simp only [Bool.and_eq_true, decide_eq_true_eq] at hfound
  obtain ⟨k, hk, _, hfile⟩ := h.descriptors f hfound.1
  obtain rfl : i = k := Option.some.inj (hfound.2.symm.trans hk)
  rw [hdir] at hfile
  cases hfile

end Below

-- A path of 63 characters leaves no room for the slash that the names below would have.
theorem rd_exact_iff {st : RamFs} (h : Reachable st) (path : Option Str) :
    st.RemovesExactly path ↔ ∀ i, st.Removable path i → (st.inodes i).name.length ≠ 63 := by
  have htree := reachable_namespace h
  have hremovable : ∀ i, st.Removable path i → st.rd path =
      if (st.inodes i).name.length = 63 then (-1, st) else (0, st.setInode i .empty) := by
    rintro i ⟨hpath, hroot, hused, hdir, hchildren⟩
    have hnormal := htree.normal i hused
    have hentries : st.hasEntries (st.inodes i).name = false := by
      by_contra hentries
      exact (hasEntries_iff htree hnormal hroot).mp (by simpa using hentries) hchildren
    have hlength := hnormal.length
    have hroom : nameSize ≤ (st.inodes i).name.length + 1 ↔ (st.inodes i).name.length = 63 := by
      simp only [nameSize] at hlength ⊢
      omega
    simp [RamFs.rd, hpath, hroot, findInode_of_used htree hused, hdir, hentries,
      not_isOpen htree hdir, hroom]
  have hother : (∀ i, ¬st.Removable path i) → st.rd path = (-1, st) := by
    intro hnone
    unfold RamFs.rd
    split
    · rfl
    rename_i directory hpath
    by_cases hroot : directory = rootPath
    · rw [if_pos hroot]
    rw [if_neg hroot]
    split
    · rfl
    rename_i i hi
    obtain ⟨hused, rfl⟩ := findInode_some hi
    by_cases hdir : (st.inodes i).isDirectory = true
    · have hentries : st.hasEntries (st.inodes i).name = true :=
        (hasEntries_iff htree (htree.normal i hused) hroot).mpr
          fun hchildren => hnone i ⟨hpath, hroot, hused, hdir, hchildren⟩
      simp [hentries]
    · rw [if_pos (by simpa using hdir)]
  unfold RamFs.RemovesExactly
  rw [and_iff_left hother]
  refine forall₂_congr fun i hi => ?_
  rw [hremovable i hi]
  split_ifs with hlong <;> simp [hlong]

instance decidableRemovable {st : RamFs} {path : Option Str} {i : Fin kMaxInodes} :
    Decidable (st.Removable path i) :=
  inferInstanceAs (Decidable (_ ∧ _))

-- The directory and, after it, one with a short path are made in a new file system.
theorem new_directories : ∃ st, Reachable st ∧ st.Removable (some longPath) fileSlot ∧
    (st.rd (some longPath)).1 = -1 ∧ ∃ i, st.Removable sharedPath i := by
  have hrun : (RamFs.init (fun _ => zeroed) >>= fun p =>
      .returned ((p.2.md (some longPath)).2.md sharedPath).2 >>= fun st =>
        .returned (decide (st.Removable (some longPath) fileSlot ∧
          (st.rd (some longPath)).1 = -1 ∧ ∃ i, st.Removable sharedPath i))) = .returned true := by
    decide +kernel
  simp only [Ended.bind_eq_returned, Ended.returned.injEq, decide_eq_true_eq] at hrun
  obtain ⟨⟨ok, booted⟩, hinit, st, rfl, hst⟩ := hrun
  have hlong := Reachable.call (c := .md (some longPath)) (.init hinit) rfl
  exact ⟨_, Reachable.call (c := .md sharedPath) hlong rfl, hst⟩

theorem rd_exact_short : ∃ st i, Reachable st ∧ st.Removable sharedPath i ∧
    st.RemovesExactly sharedPath := by
  obtain ⟨st, hst, _, _, i, hi⟩ := new_directories
  refine ⟨st, i, hst, hi, (rd_exact_iff hst sharedPath).mpr fun j hj => ?_⟩
  rw [← Option.some.inj ((show normalizePath sharedPath nameSize = some (lit "/f") by
    decide +kernel).symm.trans hj.1)]
  decide

-- An empty directory that can be made and not removed again.
theorem longest_directory_stays : ∃ st, Reachable st ∧ (st.rd (some longPath)).1 = -1 ∧
    ¬st.RemovesExactly (some longPath) := by
  obtain ⟨st, hst, hlong, hrd, _⟩ := new_directories
  refine ⟨st, hst, hrd, fun h => ?_⟩
  rw [h.1 fileSlot hlong] at hrd
  cases hrd

end Wirth.Kernel.Fs

import Wirth.Kernel.Fs.Namespace

namespace Wirth.Kernel.Fs

open Wirth.Lib

section Specs

variable {st st' : RamFs} {path : Str} {i : Fin kMaxInodes}

theorem findInode_some (h : st.findInode path = some i) :
    (st.inodes i).used ∧ (st.inodes i).name = path := by
  simpa using firstSlot_eq_some h

theorem findInode_none (h : st.findInode path = none) (j : Fin kMaxInodes)
    (hj : (st.inodes j).used) : (st.inodes j).name ≠ path := by
  simpa [hj] using firstSlot_eq_none h j

theorem createInode_some {isDirectory : Bool} (hlen : path.length < nameSize)
    (h : st.createInode path isDirectory = some (i, st')) :
    (st.inodes i).used = false ∧ st' = st.setInode i ⟨true, isDirectory, path, none, 0, 0⟩ := by
  obtain ⟨j, hj, he⟩ := Option.map_eq_some_iff.mp h
  grind [copyText, List.take_of_length_le, firstSlot_eq_some]

theorem parentDirectoryExists_true (hroot : path ≠ rootPath)
    (h : st.parentDirectoryExists path = true) : ∃ j, (st.inodes j).used ∧
      (st.inodes j).isDirectory ∧ (st.inodes j).name = parentPath path := by
  unfold RamFs.parentDirectoryExists at h
  grind [findInode_some]

theorem getFd_some {fd : Int} {f : Fin kMaxFds} (h : st.getFd fd = some f) : (st.fds f).used := by
  grind [RamFs.getFd]

theorem isOpen_false (h : ¬st.isOpen i = true) (f : Fin kMaxFds) (hf : (st.fds f).used) :
    (st.fds f).inode ≠ some i := by
  have hnone : firstSlot (fun desc => desc.used && desc.inode = some i) st.fds = none := by
    simpa [RamFs.isOpen] using h
  simpa [hf] using firstSlot_eq_none hnone f

theorem hasEntries_false (h : ¬st.hasEntries path = true) (j : Fin kMaxInodes)
    (hj : (st.inodes j).used) (hne : (st.inodes j).name ≠ path) :
    (path ++ [slash]).isPrefixOf (st.inodes j).name = false := by
  have hnone : firstSlot (fun inode => inode.used && inode.name ≠ path &&
      (path ++ [slash]).isPrefixOf inode.name) st.inodes = none := by
    simpa [RamFs.hasEntries] using h
  have := firstSlot_eq_none hnone j
  simpa [hj, hne] using this

end Specs

theorem growCapacity_le {rounds capacity required result : Nat}
    (h : growCapacity rounds capacity required = some result) : required ≤ result := by
  induction rounds generalizing capacity with
  | zero => cases h
  | succ rounds ih =>
    grind [growCapacity]

theorem ensureCapacity_returned {alloc : Allocator} {inode inode' : Inode} {required : Nat} {ok : Bool}
    (h : ensureCapacity alloc inode required = .returned (ok, inode')) :
    inode'.used = inode.used ∧ inode'.isDirectory = inode.isDirectory ∧ inode'.name = inode.name ∧
      inode'.size = inode.size ∧ inode.capacity ≤ inode'.capacity ∧
      (ok = true → required ≤ inode'.capacity) := by
  unfold ensureCapacity at h
  by_cases henough : required ≤ inode.capacity
  · grind
  rw [if_neg henough] at h
  split at h
  · cases h
  rename_i newCapacity hgrow
  have hle := growCapacity_le hgrow
  split at h
  · grind
  grind [Ended.bind_eq_returned]

section Edits

variable {st st' : RamFs} {path : Option Str} {r : Int}

theorem openFd_edits {i : Fin kMaxInodes} (hi : (st.inodes i).used)
    (hfile : (st.inodes i).isDirectory = false) (flags : UInt32) : Edits st (st.openFd i flags).2 := by
  unfold RamFs.openFd
  split
  · exact .refl
  · exact .single (.descriptor _ _ fun _ => ⟨i, rfl, hi, hfile⟩)

theorem openInode_edits {i : Fin kMaxInodes} (hi : (st.inodes i).used) (flags : UInt32) :
    Edits st (st.openInode i flags).2 := by
  unfold RamFs.openInode
  split_ifs with hdir
  · exact .refl
  have hfile : (st.inodes i).isDirectory = false := by simpa using hdir
  unfold RamFs.truncated
  split_ifs
  · have hshrink : Edit st (st.setInode i { st.inodes i with size := 0 }) :=
      .resize i _ rfl rfl rfl (Nat.zero_le _)
    refine .head hshrink (openFd_edits ?_ ?_ flags)
    · rw [setInode_self]
      exact hi
    · rw [setInode_self]
      exact hfile
  · exact openFd_edits hi hfile flags

theorem createInode_edit {normalized : Str} {isDirectory : Bool} {i : Fin kMaxInodes}
    (hnormal : NormalPath normalized) (hroot : normalized ≠ rootPath)
    (hnew : st.findInode normalized = none)
    (hparent : ¬st.parentDirectoryExists normalized = false)
    (h : st.createInode normalized isDirectory = some (i, st')) :
    Edit st st' ∧ (st'.inodes i).used := by
  obtain ⟨hfree, rfl⟩ := createInode_some hnormal.length h
  refine ⟨.create i _ hfree hnormal (le_refl _) (findInode_none hnew) ?_, by simp⟩
  grind [parentDirectoryExists_true]

theorem openPath_edits (flags : UInt32) : Edits st (st.openPath path flags).2 := by
  unfold RamFs.openPath
  split
  · exact .refl
  rename_i normalized hnormal
  by_cases hroot : normalized = rootPath
  · rw [if_pos hroot]
  rw [if_neg hroot]
  split
  · grind [openInode_edits, findInode_some]
  · rename_i hnew
    split_ifs with hcreate hparent
    · exact .refl
    · exact .refl
    split
    · exact .refl
    · rename_i i st' hmade
      obtain ⟨hedit, hused⟩ :=
        createInode_edit (normalizePath_normal hnormal) hroot hnew hparent hmade
      exact .head hedit (openInode_edits hused flags)

theorem md_edits : Edits st (st.md path).2 := by
  unfold RamFs.md
  split
  · exact .refl
  rename_i normalized hnormal
  by_cases hroot : normalized = rootPath
  · rw [if_pos hroot]
  rw [if_neg hroot]
  split
  · exact .refl
  · rename_i hnew
    split_ifs with hparent
    · exact .refl
    split
    · exact .refl
    · rename_i i st' hmade
      exact .single (createInode_edit (normalizePath_normal hnormal) hroot hnew hparent hmade).1

theorem rd_edits : Edits st (st.rd path).2 := by
  unfold RamFs.rd
  split
  · exact .refl
  rename_i normalized hnormal
  by_cases hroot : normalized = rootPath
  · rw [if_pos hroot]
  rw [if_neg hroot]
  split
  · exact .refl
  rename_i i hi
  obtain ⟨hused, rfl⟩ := findInode_some hi
  split_ifs with hdir hlen hentries hopen
  iterate 4 exact .refl
  · exact .single (.remove i .empty hused hroot rfl (le_refl _) (isOpen_false hopen)
      fun _ => hasEntries_false hentries)

theorem unlink_edits : Edits st (st.unlink path).2 := by
  unfold RamFs.unlink
  split
  · exact .refl
  rename_i normalized hnormal
  by_cases hroot : normalized = rootPath
  · rw [if_pos hroot]
  rw [if_neg hroot]
  split
  · exact .refl
  rename_i i hi
  obtain ⟨hused, rfl⟩ := findInode_some hi
  split_ifs with hdir hopen
  · exact .refl
  · exact .refl
  · exact .single (.remove i _ hused hroot rfl (le_refl _) (isOpen_false hopen)
      fun h => absurd h hdir)

theorem close_edits (fd : Int) : Edits st (st.close fd).2 := by
  unfold RamFs.close
  split
  · exact .refl
  · exact .single (.descriptor _ _ fun h => by cases h)

theorem read_edits (h : st.Namespace) {fd : Int} {buf : Bool} {count : UInt32} {bytes : List UInt8}
    (hread : st.read fd buf count = .returned (r, bytes, st')) : Edits st st' := by
  unfold RamFs.read at hread
  split_ifs at hread
  · cases hread
    exact .refl
  split at hread
  · cases hread
    exact .refl
  rename_i f hf
  simp only at hread
  split at hread
  · cases hread
    exact .refl
  split_ifs at hread
  · cases hread
    exact .refl
  · cases hread
    exact .refl
  · simp only [Ended.bind_eq_returned, Ended.returned.injEq, Prod.mk.injEq] at hread
    obtain ⟨bytes', _, _, _, rfl⟩ := hread
    exact .single (.descriptor f _ fun hused => h.descriptors f hused)

theorem write_edits (h : st.Namespace) {alloc : Allocator} {fd : Int} {buf : Option (Nat → UInt8)}
    {count : UInt32} (hwrite : st.write alloc fd buf count = .returned (r, st')) : Edits st st' := by
  unfold RamFs.write at hwrite
  split at hwrite
  · cases hwrite
    exact .refl
  split at hwrite
  · cases hwrite
    exact .refl
  rename_i f hf
  simp only at hwrite
  split at hwrite
  · cases hwrite
    exact .refl
  rename_i i hi
  split_ifs at hwrite
  · cases hwrite
    exact .refl
  rw [Ended.bind_eq_returned] at hwrite
  obtain ⟨⟨ok, inode⟩, hensure, hwrite⟩ := hwrite
  obtain ⟨hused, hkind, hname, hsize, hgrown, henough⟩ := ensureCapacity_returned hensure
  have hle := h.size_le i
  by_cases hok : ok = false
  · rw [if_pos hok] at hwrite
    cases hwrite
    exact .single (.resize i inode hused hkind hname (by omega))
  rw [if_neg hok] at hwrite
  simp only [Ended.bind_eq_returned, Ended.returned.injEq, Prod.mk.injEq] at hwrite
  obtain ⟨data, _, _, rfl⟩ := hwrite
  have hstop := henough (by simpa using hok)
  have hresize : Edit st (st.setInode i { inode with
      data := data
      size := if inode.size < uint32 ((st.fds f).offset + count.toNat) then
        uint32 ((st.fds f).offset + count.toNat) else inode.size }) := by
    refine .resize i _ hused hkind hname ?_
    simp only
    split_ifs <;> omega
  refine .tail (.single hresize) (.descriptor f _ ?_)
  · obtain ⟨j, hj, hjused, hjfile⟩ := h.descriptors f (getFd_some hf)
    grind [setInode_self]

end Edits

end Wirth.Kernel.Fs

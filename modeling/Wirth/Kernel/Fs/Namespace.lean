import Wirth.Kernel.Fs.RamFs

namespace Wirth.Kernel.Fs

open Wirth.Lib

-- The tree of names that 64 flat paths stand for, and what descriptors refer to.
structure RamFs.Namespace (st : RamFs) : Prop where
  unique : ∀ i j, (st.inodes i).used → (st.inodes j).used →
    (st.inodes i).name = (st.inodes j).name → i = j
  normal : ∀ i, (st.inodes i).used → NormalPath (st.inodes i).name
  root : ∃ i, (st.inodes i).used ∧ (st.inodes i).name = rootPath ∧ (st.inodes i).isDirectory
  parent : ∀ i, (st.inodes i).used → (st.inodes i).name ≠ rootPath → ∃ j, (st.inodes j).used ∧
    (st.inodes j).isDirectory ∧ (st.inodes j).name = parentPath (st.inodes i).name
  descriptors : ∀ f, (st.fds f).used → ∃ i, (st.fds f).inode = some i ∧ (st.inodes i).used ∧
    (st.inodes i).isDirectory = false
  size_le : ∀ i, (st.inodes i).size ≤ (st.inodes i).capacity

inductive Edit (st : RamFs) : RamFs → Prop
  | create (i : Fin kMaxInodes) (inode : Inode) (hfree : (st.inodes i).used = false)
      (hnormal : NormalPath inode.name) (hsize : inode.size ≤ inode.capacity)
      (hnew : ∀ j, (st.inodes j).used → (st.inodes j).name ≠ inode.name)
      (hparent : ∃ j, (st.inodes j).used ∧ (st.inodes j).isDirectory ∧
        (st.inodes j).name = parentPath inode.name) :
      Edit st (st.setInode i inode)
  | remove (i : Fin kMaxInodes) (inode : Inode) (hused : (st.inodes i).used)
      (hroot : (st.inodes i).name ≠ rootPath) (hgone : inode.used = false)
      (hsize : inode.size ≤ inode.capacity)
      (hclosed : ∀ f, (st.fds f).used → (st.fds f).inode ≠ some i)
      (hleaf : (st.inodes i).isDirectory → ∀ j, (st.inodes j).used →
        (st.inodes j).name ≠ (st.inodes i).name →
        ((st.inodes i).name ++ [slash]).isPrefixOf (st.inodes j).name = false) :
      Edit st (st.setInode i inode)
  | resize (i : Fin kMaxInodes) (inode : Inode) (hused : inode.used = (st.inodes i).used)
      (hkind : inode.isDirectory = (st.inodes i).isDirectory)
      (hname : inode.name = (st.inodes i).name) (hsize : inode.size ≤ inode.capacity) :
      Edit st (st.setInode i inode)
  | descriptor (f : Fin kMaxFds) (desc : FileDescriptor)
      (hdesc : desc.used → ∃ i, desc.inode = some i ∧ (st.inodes i).used ∧
        (st.inodes i).isDirectory = false) :
      Edit st (st.setFd f desc)

section Setters

variable {st : RamFs} {i j : Fin kMaxInodes} {inode : Inode}

@[simp] theorem setInode_self : (st.setInode i inode).inodes i = inode := by
  simp [RamFs.setInode]

theorem setInode_of_ne (h : j ≠ i) : (st.setInode i inode).inodes j = st.inodes j := by
  simp [RamFs.setInode, h]

theorem forall_setInode (P : Inode → Prop) (h : ∀ j, P (st.inodes j)) (hinode : P inode)
    (j : Fin kMaxInodes) : P ((st.setInode i inode).inodes j) := by
  by_cases hji : j = i
  · rw [hji, setInode_self]
    exact hinode
  · rw [setInode_of_ne hji]
    exact h j

@[simp] theorem setInode_fds : (st.setInode i inode).fds = st.fds := rfl

variable {f g : Fin kMaxFds} {desc : FileDescriptor}

@[simp] theorem setFd_self : (st.setFd f desc).fds f = desc := by
  simp [RamFs.setFd]

theorem setFd_of_ne (h : g ≠ f) : (st.setFd f desc).fds g = st.fds g := by
  simp [RamFs.setFd, h]

@[simp] theorem setFd_inodes : (st.setFd f desc).inodes = st.inodes := rfl

end Setters

variable {st : RamFs} {i : Fin kMaxInodes} {st' : RamFs} {inode : Inode}

theorem Edit.create_namespace (h : st.Namespace)
    (hfree : (st.inodes i).used = false) (hnormal : NormalPath inode.name)
    (hsize : inode.size ≤ inode.capacity)
    (hnew : ∀ j, (st.inodes j).used → (st.inodes j).name ≠ inode.name)
    (hparent : ∃ j, (st.inodes j).used ∧ (st.inodes j).isDirectory ∧
      (st.inodes j).name = parentPath inode.name) : (st.setInode i inode).Namespace := by
  have hkeep : ∀ j, (st.inodes j).used → (st.setInode i inode).inodes j = st.inodes j := by
    intro j hj
    refine setInode_of_ne ?_
    rintro rfl
    simp [hfree] at hj
  refine ⟨?_, ?_, ?_, ?_, ?_, ?_⟩
  · intro j k hj hk hname
    by_cases hji : j = i
    · grind [setInode_self, setInode_of_ne]
    · rw [setInode_of_ne hji] at hj hname
      by_cases hki : k = i
      · grind [setInode_self]
      · rw [setInode_of_ne hki] at hk hname
        exact h.unique j k hj hk hname
  · intro j hj
    by_cases hji : j = i
    · rw [hji, setInode_self]
      exact hnormal
    · rw [setInode_of_ne hji] at hj ⊢
      exact h.normal j hj
  · obtain ⟨j, hj, hrest⟩ := h.root
    grind
  · have hlift : ∀ p, (∃ j, (st.inodes j).used ∧ (st.inodes j).isDirectory ∧
        (st.inodes j).name = p) → ∃ j, ((st.setInode i inode).inodes j).used ∧
        ((st.setInode i inode).inodes j).isDirectory ∧
        ((st.setInode i inode).inodes j).name = p := by
      rintro p ⟨j, hj, hrest⟩
      exact ⟨j, by rw [hkeep j hj]; exact ⟨hj, hrest⟩⟩
    intro j hj hroot
    by_cases hji : j = i
    · grind [setInode_self]
    · rw [setInode_of_ne hji] at hj hroot ⊢
      exact hlift _ (h.parent j hj hroot)
  · intro f hf
    obtain ⟨j, hinode, hj, hrest⟩ := h.descriptors f hf
    simp [hinode, hkeep, hj, hrest]
  · exact forall_setInode (fun inode => inode.size ≤ inode.capacity) h.size_le hsize

theorem Edit.remove_namespace (h : st.Namespace)
    (hused : (st.inodes i).used) (hroot : (st.inodes i).name ≠ rootPath)
    (hgone : inode.used = false) (hsize : inode.size ≤ inode.capacity)
    (hclosed : ∀ f, (st.fds f).used → (st.fds f).inode ≠ some i)
    (hleaf : (st.inodes i).isDirectory → ∀ j, (st.inodes j).used →
      (st.inodes j).name ≠ (st.inodes i).name →
      ((st.inodes i).name ++ [slash]).isPrefixOf (st.inodes j).name = false) :
    (st.setInode i inode).Namespace := by
  have hold : ∀ j, ((st.setInode i inode).inodes j).used → j ≠ i := by
    rintro j hj rfl
    simp [hgone] at hj
  refine ⟨?_, ?_, ?_, ?_, ?_, ?_⟩
  · intro j k hj hk hname
    have hji := hold j hj
    have hki := hold k hk
    rw [setInode_of_ne hji] at hj hname
    rw [setInode_of_ne hki] at hk hname
    exact h.unique j k hj hk hname
  · intro j hj
    have hji := hold j hj
    rw [setInode_of_ne hji] at hj ⊢
    exact h.normal j hj
  · obtain ⟨j, hj, hname, hdir⟩ := h.root
    refine ⟨j, ?_⟩
    grind [setInode_of_ne]
  · intro j hj hjroot
    have hji := hold j hj
    rw [setInode_of_ne hji] at hj hjroot ⊢
    obtain ⟨k, hk, hdir, hname⟩ := h.parent j hj hjroot
    have hki : k ≠ i := by
      rintro rfl
      have hbelow := parentPath_prefix (h.normal j hj) (by rw [← hname]; exact hroot)
      rw [← hname] at hbelow
      have hne : (st.inodes j).name ≠ (st.inodes k).name := by
        intro he
        rw [he] at hbelow
        have hlen := (List.isPrefixOf_iff_prefix.mp hbelow).length_le
        simp at hlen
      simp [hleaf hdir j hj hne] at hbelow
    exact ⟨k, by grind [setInode_of_ne]⟩
  · intro f hf
    obtain ⟨k, hinode, hk, hkind⟩ := h.descriptors f hf
    have hki : k ≠ i := by
      rintro rfl
      exact hclosed f hf hinode
    simp [setInode_of_ne, hinode, hki, hk, hkind]
  · exact forall_setInode (fun inode => inode.size ≤ inode.capacity) h.size_le hsize

theorem Edit.resize_namespace (h : st.Namespace)
    (hused : inode.used = (st.inodes i).used)
    (hkind : inode.isDirectory = (st.inodes i).isDirectory)
    (hname : inode.name = (st.inodes i).name) (hsize : inode.size ≤ inode.capacity) :
    (st.setInode i inode).Namespace := by
  have hsame : ∀ j, ((st.setInode i inode).inodes j).used = (st.inodes j).used ∧
      ((st.setInode i inode).inodes j).isDirectory = (st.inodes j).isDirectory ∧
      ((st.setInode i inode).inodes j).name = (st.inodes j).name := by
    intro j
    by_cases hji : j = i
    · grind [setInode_self]
    · simp [setInode_of_ne, hji]
  refine ⟨?_, ?_, ?_, ?_, ?_, ?_⟩
  · simpa only [hsame] using h.unique
  · simpa only [hsame] using h.normal
  · simpa only [hsame] using h.root
  · simpa only [hsame] using h.parent
  · simpa only [hsame, setInode_fds] using h.descriptors
  · exact forall_setInode (fun inode => inode.size ≤ inode.capacity) h.size_le hsize

theorem Edit.descriptor_namespace {f : Fin kMaxFds} {desc : FileDescriptor}
    (h : st.Namespace) (hdesc : desc.used → ∃ i, desc.inode = some i ∧ (st.inodes i).used ∧
      (st.inodes i).isDirectory = false) : (st.setFd f desc).Namespace := by
  refine ⟨h.unique, h.normal, h.root, h.parent, ?_, h.size_le⟩
  intro g hg
  by_cases hgf : g = f
  · rw [hgf, setFd_self] at hg ⊢
    exact hdesc hg
  · rw [setFd_of_ne hgf] at hg ⊢
    exact h.descriptors g hg

theorem Edit.namespace (he : Edit st st') (h : st.Namespace) : st'.Namespace := by
  cases he with
  | create i inode hfree hnormal hsize hnew hparent =>
    grind [create_namespace]
  | remove i inode hused hroot hgone hsize hclosed hleaf =>
    grind [remove_namespace]
  | resize i inode hused hkind hname hsize => exact resize_namespace h hused hkind hname hsize
  | descriptor f desc hdesc => exact descriptor_namespace h hdesc

abbrev Edits : RamFs → RamFs → Prop := Relation.ReflTransGen Edit

theorem Edits.namespace (he : Edits st st') (h : st.Namespace) : st'.Namespace := by
  induction he with
  | refl => exact h
  | tail _ hedit ih => exact hedit.namespace ih

end Wirth.Kernel.Fs

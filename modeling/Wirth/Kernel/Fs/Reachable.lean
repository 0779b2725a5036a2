import Wirth.Kernel.Fs.Operations

namespace Wirth.Kernel.Fs

open Wirth.Lib

def Seed.path : Seed → Str
  | .dir path => path
  | .file path _ => path

def Seed.isDirectory : Seed → Bool
  | .dir _ => true
  | .file _ _ => false

structure Planted (seen : List (Str × Bool)) (st : RamFs) : Prop where
  tree : st.Namespace
  listed : ∀ i, (st.inodes i).used → ((st.inodes i).name, (st.inodes i).isDirectory) ∈ seen
  present : ∀ path, (path, true) ∈ seen → ∃ i, (st.inodes i).used ∧ (st.inodes i).isDirectory ∧
    (st.inodes i).name = path

def sown (seen : List (Str × Bool)) : List (Option Seed) → Bool
  | [] => true
  | none :: _ => true
  | some seed :: rest =>
      NormalPath seed.path && seen.all (fun p => p.1 ≠ seed.path) &&
        (parentPath seed.path, true) ∈ seen && sown (seen ++ [(seed.path, seed.isDirectory)]) rest

theorem plant_shape {st st' : RamFs} {alloc : Allocator} {seed : Seed} {ok : Bool}
    (hlen : seed.path.length < nameSize) (h : st.plant alloc seed = .returned (ok, st')) :
    (ok = false ∧ st' = st) ∨ ∃ i inode, (st.inodes i).used = false ∧ inode.used ∧
      inode.isDirectory = seed.isDirectory ∧ inode.name = seed.path ∧ inode.size ≤ inode.capacity ∧
      st' = st.setInode i inode := by
  cases seed with
  | dir path =>
    simp only [RamFs.plant] at h
    split at h
    · cases h
      exact Or.inl ⟨rfl, rfl⟩
    · rename_i i made hmade
      cases h
      obtain ⟨hfree, rfl⟩ := createInode_some hlen hmade
      exact Or.inr ⟨i, _, hfree, rfl, rfl, rfl, le_refl _, rfl⟩
  | file path content =>
    simp only [RamFs.plant] at h
    split at h
    · cases h
      exact Or.inl ⟨rfl, rfl⟩
    · rename_i i made hmade
      obtain ⟨hfree, rfl⟩ := createInode_some hlen hmade
      rw [Ended.bind_eq_returned] at h
      obtain ⟨⟨enough, inode⟩, hensure, h⟩ := h
      rw [setInode_self] at hensure
      obtain ⟨hused, hkind, hname, hsize, _, hcapacity⟩ := ensureCapacity_returned hensure
      by_cases henough : enough = false
      · rw [if_pos henough] at h
        cases h
        exact Or.inr ⟨i, _, hfree, rfl, rfl, rfl, le_refl _, rfl⟩
      · rw [if_neg henough] at h
        simp only [Ended.bind_eq_returned, Ended.returned.injEq, Prod.mk.injEq] at h
        obtain ⟨data, _, _, rfl⟩ := h
        refine Or.inr ⟨i, { inode with data := data, size := content.length }, hfree, hused, hkind,
          hname, hcapacity (by simpa using henough), ?_⟩
        simp [RamFs.setInode]

theorem plant_planted {seen : List (Str × Bool)} {st st' : RamFs} {alloc : Allocator} {seed : Seed}
    {ok : Bool} (hst : Planted seen st) (hnormal : NormalPath seed.path)
    (hnew : ∀ p ∈ seen, p.1 ≠ seed.path) (hparent : (parentPath seed.path, true) ∈ seen)
    (h : st.plant alloc seed = .returned (ok, st')) :
    st'.Namespace ∧ (ok = true → Planted (seen ++ [(seed.path, seed.isDirectory)]) st') := by
  rcases plant_shape hnormal.length h with ⟨rfl, rfl⟩ | ⟨i, inode, hfree, hused, hkind, hname, hsize, rfl⟩
  · exact ⟨hst.tree, fun hok => by cases hok⟩
  have htree : (st.setInode i inode).Namespace := by
    refine (Edit.create i inode hfree (by rw [hname]; exact hnormal) hsize ?_ ?_).namespace hst.tree
    · intro j hj
      rw [hname]
      exact hnew _ (hst.listed j hj)
    · rw [hname]
      exact hst.present _ hparent
  refine ⟨htree, fun _ => ⟨htree, ?_, ?_⟩⟩
  · intro j hj
    by_cases hji : j = i
    · rw [hji, setInode_self, hname, hkind]
      simp
    · rw [setInode_of_ne hji] at hj ⊢
      exact List.mem_append_left _ (hst.listed j hj)
  · intro path hpath
    rcases List.mem_append.mp hpath with hpath | hpath
    · obtain ⟨j, hj, hrest⟩ := hst.present path hpath
      refine ⟨j, ?_⟩
      grind [setInode_of_ne]
    · simp only [List.mem_singleton, Prod.mk.injEq] at hpath
      refine ⟨i, ?_⟩
      simp [hname, hkind, hused, hpath]

theorem plantAll_namespace {alloc : Nat → Allocator} {k : Nat} {seeds : List (Option Seed)}
    {seen : List (Str × Bool)} {st st' : RamFs} {ok : Bool} (hst : Planted seen st)
    (hsown : sown seen seeds = true) (h : RamFs.plantAll alloc k seeds st = .returned (ok, st')) :
    st'.Namespace := by
  induction seeds generalizing seen st k with
  | nil =>
    cases h
    exact hst.tree
  | cons seed rest ih =>
    cases seed with
    | none =>
      cases h
      exact hst.tree
    | some seed =>
      simp only [sown, Bool.and_eq_true, decide_eq_true_eq, List.all_eq_true] at hsown
      obtain ⟨⟨⟨hnormal, hnew⟩, hparent⟩, hrest⟩ := hsown
      simp only [RamFs.plantAll, Ended.bind_eq_returned] at h
      obtain ⟨⟨planted, made⟩, hplant, h⟩ := h
      obtain ⟨htree, hnext⟩ := plant_planted hst hnormal hnew hparent hplant
      grind

-- The first seed is the root itself, in the first slot of the empty file system.
def rootSlot : Fin kMaxInodes := ⟨0, by decide⟩

def rooted : RamFs := RamFs.cleared.setInode rootSlot ⟨true, true, rootPath, none, 0, 0⟩

theorem rooted_planted : Planted [(rootPath, true)] rooted := by
  have hused : ∀ i, (rooted.inodes i).used → i = rootSlot := by
    intro i hi
    by_contra hne
    rw [rooted, setInode_of_ne hne] at hi
    cases hi
  have hzero : rooted.inodes rootSlot = ⟨true, true, rootPath, none, 0, 0⟩ := setInode_self
  have hroot : ∃ i, (rooted.inodes i).used ∧ (rooted.inodes i).isDirectory ∧
      (rooted.inodes i).name = rootPath := ⟨rootSlot, by exact ⟨rfl, rfl, rfl⟩⟩
  refine ⟨⟨?_, ?_, ?_, ?_, ?_, ?_⟩, ?_, ?_⟩
  · intro i j hi hj _
    rw [hused i hi, hused j hj]
  · intro i hi
    rw [hused i hi, hzero]
    exact (by decide : NormalPath rootPath)
  · grind
  · grind
  · intro f hf
    cases hf
  · intro i
    by_cases hi : i = rootSlot
    · rw [hi, hzero]
    · rw [rooted, setInode_of_ne hi]
      exact le_refl _
  · intro i hi
    rw [hused i hi, hzero]
    simp
  simp [hroot]

-- Whether `init` comes to its end or stops short, what it has made is a tree.
theorem init_namespace {alloc : Nat → Allocator} {ok : Bool} {st : RamFs}
    (h : RamFs.init alloc = .returned (ok, st)) : st.Namespace := by
  have hfirst : RamFs.cleared.plant (alloc 0) (.dir (lit "/")) = .returned (true, rooted) := rfl
  have hseeds : ∃ rest, initSeeds = some (.dir (lit "/")) :: rest ∧
      sown [(rootPath, true)] rest = true := ⟨_, rfl, by decide +kernel⟩
  obtain ⟨rest, hrest, hsown⟩ := hseeds
  rw [RamFs.init, hrest, RamFs.plantAll, hfirst] at h
  exact plantAll_namespace rooted_planted hsown h

-- The operations of the file system with their arguments; those that need memory say what
-- the heap answers.
inductive Call where
  | openPath (path : Option Str) (flags : UInt32)
  | read (fd : Int) (buf : Bool) (count : UInt32)
  | write (alloc : Allocator) (fd : Int) (buf : Option (Nat → UInt8)) (count : UInt32)
  | close (fd : Int)
  | md (path : Option Str)
  | readdir (path : Option Str) (entries : Bool) (maxEntries : UInt32)
  | rd (path : Option Str)
  | unlink (path : Option Str)

def RamFs.call (st : RamFs) : Call → Ended (Int × RamFs)
  | .openPath path flags => .returned (st.openPath path flags)
  | .read fd buf count => do
      let (n, _, st) ← st.read fd buf count
      .returned (n, st)
  | .write alloc fd buf count => st.write alloc fd buf count
  | .close fd => .returned (st.close fd)
  | .md path => .returned (st.md path)
  | .readdir path entries maxEntries => .returned ((st.readdir path entries maxEntries).1, st)
  | .rd path => .returned (st.rd path)
  | .unlink path => .returned (st.unlink path)

inductive Reachable : RamFs → Prop
  | init {alloc : Nat → Allocator} {ok : Bool} {st : RamFs}
      (h : RamFs.init alloc = .returned (ok, st)) : Reachable st
  | call {st st' : RamFs} {c : Call} {r : Int} (hst : Reachable st)
      (h : st.call c = .returned (r, st')) : Reachable st'

theorem call_edits {st st' : RamFs} {c : Call} {r : Int} (hst : st.Namespace)
    (h : st.call c = .returned (r, st')) : Edits st st' := by
  have hsnd : ∀ {p : Int × RamFs}, Edits st p.2 → Ended.returned p = .returned (r, st') →
      Edits st st' := by
    rintro p hp he
    cases he
    exact hp
  cases c with
  | openPath path flags => exact hsnd (openPath_edits flags) h
  | read fd buf count =>
    simp only [RamFs.call, Ended.bind_eq_returned, Ended.returned.injEq, Prod.mk.injEq] at h
    obtain ⟨⟨n, bytes, after⟩, hread, _, rfl⟩ := h
    exact read_edits hst hread
  | write alloc fd buf count => exact write_edits hst h
  | close fd => exact hsnd (close_edits fd) h
  | md path => exact hsnd md_edits h
  | readdir path entries maxEntries => exact hsnd .refl h
  | rd path => exact hsnd rd_edits h
  | unlink path => exact hsnd unlink_edits h

-- The names of the used inodes form a tree in every state, and descriptors refer to files
-- in it.
theorem reachable_namespace {st : RamFs} (h : Reachable st) : st.Namespace := by
  induction h with
  | init h => exact init_namespace h
  | call _ h ih => exact (call_edits ih h).namespace ih

def zeroed : Allocator := ⟨fun n => some (List.replicate n 0), by
  intro n b h
  cases h
  simp⟩

-- After `init`, a directory is made and a file in it, both under sloppy names.
theorem reachable_namespace_made : ∃ st made opened : RamFs,
    RamFs.init (fun _ => zeroed) = .returned (true, st) ∧
    st.call (.md (some (lit "/home//new/"))) = .returned (0, made) ∧
    made.call (.openPath (some (lit "/home/new//file")) kOpenCreate) = .returned (3, opened) ∧
    opened.Namespace := by
  have hrun : (RamFs.init (fun _ => zeroed) >>= fun p => .returned (p.1,
      (p.2.md (some (lit "/home//new/"))).1, ((p.2.md (some (lit "/home//new/"))).2.openPath
        (some (lit "/home/new//file")) kOpenCreate).1)) = .returned (true, 0, 3) := by
    decide +kernel
  rw [Ended.bind_eq_returned] at hrun
  obtain ⟨⟨ok, st⟩, hinit, hrun⟩ := hrun
  rw [Ended.returned.injEq, Prod.mk.injEq, Prod.mk.injEq] at hrun
  obtain ⟨hok, hmade, hopened⟩ := hrun
  simp only at hok hmade hopened
  subst hok
  obtain ⟨made, hmd⟩ : ∃ made, st.md (some (lit "/home//new/")) = (0, made) :=
    ⟨_, Prod.ext hmade rfl⟩
  rw [hmd] at hopened
  obtain ⟨opened, hopen⟩ : ∃ opened,
      made.openPath (some (lit "/home/new//file")) kOpenCreate = (3, opened) :=
    ⟨_, Prod.ext hopened rfl⟩
  have hfirst : st.call (.md (some (lit "/home//new/"))) = .returned (0, made) := by
    rw [RamFs.call, hmd]
  have hsecond : made.call (.openPath (some (lit "/home/new//file")) kOpenCreate) =
      .returned (3, opened) := by
    rw [RamFs.call, hopen]
  exact ⟨st, made, opened, hinit, hfirst, hsecond,
    reachable_namespace (.call (.call (.init hinit) hfirst) hsecond)⟩

end Wirth.Kernel.Fs

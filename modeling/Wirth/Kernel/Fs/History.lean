import Wirth.Kernel.Fs.Reachable

namespace Wirth.Kernel.Fs

open Wirth.Lib

-- What has happened to the files, each known by its slot as long as it exists.
inductive Effect where
  | created (i : Fin kMaxInodes)
  | truncated (i : Fin kMaxInodes)
  | wrote (i : Fin kMaxInodes) (offset : Nat) (bytes : List UInt8)
  deriving DecidableEq

-- The value written last at a position of a file since it was created or truncated, if any.
-- The history has the newest effect first.
def lastWritten (i : Fin kMaxInodes) (p : Nat) : List Effect → Option UInt8
  | [] => none
  | .created j :: older => if j = i then none else lastWritten i p older
  | .truncated j :: older => if j = i then none else lastWritten i p older
  | .wrote j offset bytes :: older =>
      if j = i ∧ offset ≤ p ∧ p < offset + bytes.length then bytes[p - offset]?
      else lastWritten i p older

def truncation (i : Fin kMaxInodes) (flags : UInt32) : List Effect :=
  if flags &&& kOpenTruncate ≠ 0 ∧ flags &&& kOpenWrite ≠ 0 then [.truncated i] else []

namespace RamFs

-- A file that is there may be truncated; one that was not there and is now was created.
def openEffects (st : RamFs) (path : Option Str) (flags : UInt32) : List Effect :=
  match normalizePath path nameSize with
  | none => []
  | some normalized =>
      match st.findInode normalized with
      | some i => if (st.inodes i).isDirectory then [] else truncation i flags
      | none =>
          match (st.openPath path flags).2.findInode normalized with
          | some i => truncation i flags ++ [.created i]
          | none => []

-- The bytes of an accepted write go to the descriptor's file, if there is room for them.
def writeEffects (st : RamFs) (alloc : Allocator) (fd : Int) (buf : Option (Nat → UInt8))
    (count : UInt32) : List Effect :=
  match buf, st.getFd fd with
  | some source, some f =>
      match (st.fds f).inode with
      | none => []
      | some i =>
          if (st.fds f).flags &&& kOpenWrite = 0 then []
          else match ensureCapacity alloc (st.inodes i)
              (uint32 ((st.fds f).offset + count.toNat)) with
            | .returned (true, _) =>
                [.wrote i (st.fds f).offset ((List.range count.toNat).map source)]
            | _ => []
  | _, _ => []

def effects (st : RamFs) : Call → List Effect
  | .openPath path flags => st.openEffects path flags
  | .write alloc fd buf count => st.writeEffects alloc fd buf count
  | _ => []

def plantEffects (st : RamFs) (alloc : Allocator) : Seed → List Effect
  | .dir _ => []
  | .file path content =>
      match st.createInode path false with
      | none => []
      | some (i, st) =>
          match ensureCapacity alloc (st.inodes i) content.length with
          | .returned (true, _) => [.wrote i 0 content, .created i]
          | _ => [.created i]

def plantAllEffects (alloc : Nat → Allocator) : Nat → List (Option Seed) → RamFs → List Effect
  | _, [], _ => []
  | _, none :: _, _ => []
  | k, some seed :: rest, st =>
      match st.plant (alloc k) seed with
      | .returned (true, st') =>
          plantAllEffects alloc (k + 1) rest st' ++ st.plantEffects (alloc k) seed
      | _ => st.plantEffects (alloc k) seed

def initEffects (alloc : Nat → Allocator) : List Effect := plantAllEffects alloc 0 initSeeds cleared

end RamFs

-- The states of the file system with their histories, where every call has to be `allowed` and
-- `init` runs with `admitted` answers of the heap.
inductive Traced (admitted : Allocator → Prop) (allowed : RamFs → Call → Prop) :
    RamFs → List Effect → Prop
  | init {alloc : Nat → Allocator} {ok : Bool} {st : RamFs} (halloc : ∀ k, admitted (alloc k))
      (h : RamFs.init alloc = .returned (ok, st)) :
      Traced admitted allowed st (RamFs.initEffects alloc)
  | call {st st' : RamFs} {history : List Effect} {c : Call} {r : Int}
      (hst : Traced admitted allowed st history) (hc : allowed st c)
      (h : st.call c = .returned (r, st')) :
      Traced admitted allowed st' (st.effects c ++ history)

theorem Traced.reachable {admitted : Allocator → Prop} {allowed : RamFs → Call → Prop} {st : RamFs}
    {history : List Effect} (h : Traced admitted allowed st history) : Reachable st := by
  induction h with
  | init _ h => exact .init h
  | call _ _ h ih => exact .call ih h

-- The changes that operations make to files and descriptors.

def Inode.byteAt (inode : Inode) (p : Nat) : UInt8 := (inode.data.getD []).getD p 0

-- The buffer has as many bytes as the inode says, and more than the file needs.
structure Inode.WellSized (inode : Inode) : Prop where
  buffer : (inode.data.getD []).length = inode.capacity
  size_le : inode.size ≤ inode.capacity
  capacity_lt : inode.capacity < 2 ^ 32

theorem emptyInode_wellSized (used isDirectory : Bool) (name : Str) :
    (⟨used, isDirectory, name, none, 0, 0⟩ : Inode).WellSized :=
  ⟨rfl, le_refl _, Nat.two_pow_pos 32⟩

-- Bytes were put into a file and the rest of it was kept.
structure Inode.Stores (inode inode' : Inode) (offset : Nat) (bytes : List UInt8) : Prop where
  used_eq : inode'.used = inode.used
  kind_eq : inode'.isDirectory = inode.isDirectory
  size_eq : inode'.size = max inode.size (offset + bytes.length)
  sized : inode'.WellSized
  kept : ∀ p, p < inode.size → ¬(offset ≤ p ∧ p < offset + bytes.length) →
    inode'.byteAt p = inode.byteAt p
  stored : ∀ p, offset ≤ p → p < offset + bytes.length → inode'.byteAt p = bytes.getD (p - offset) 0

-- What operations do to files and descriptors. Bytes are stored where the size of the file, the
-- place and the number of bytes fit each other.
inductive Change (fits : Nat → Nat → Nat → Prop) (st : RamFs) : RamFs → List Effect → Prop
  | descriptor (f : Fin kMaxFds) (desc : FileDescriptor) (hoffset : desc.offset < 2 ^ 32)
      (hused : desc.used = true ∨ desc = .empty) : Change fits st (st.setFd f desc) []
  | makeFile (i : Fin kMaxInodes) (name : Str) (hfree : (st.inodes i).used = false) :
      Change fits st (st.setInode i ⟨true, false, name, none, 0, 0⟩) [.created i]
  | makeDirectory (i : Fin kMaxInodes) (name : Str) (hfree : (st.inodes i).used = false) :
      Change fits st (st.setInode i ⟨true, true, name, none, 0, 0⟩) []
  | cut (i : Fin kMaxInodes) :
      Change fits st (st.setInode i { st.inodes i with size := 0 }) [.truncated i]
  | remove (i : Fin kMaxInodes) (inode : Inode) (hgone : inode.used = false)
      (hsize : inode.size = 0) (hsized : inode.WellSized) : Change fits st (st.setInode i inode) []
  | store (i : Fin kMaxInodes) (inode : Inode) (offset : Nat) (bytes : List UInt8)
      (hfits : fits (st.inodes i).size offset bytes.length)
      (hstores : (st.inodes i).Stores inode offset bytes) :
      Change fits st (st.setInode i inode) [.wrote i offset bytes]

inductive Changes (fits : Nat → Nat → Nat → Prop) : RamFs → RamFs → List Effect → Prop
  | refl (st : RamFs) : Changes fits st st []
  | step {st mid st' : RamFs} {earlier later : List Effect} (h : Changes fits st mid earlier)
      (hchange : Change fits mid st' later) : Changes fits st st' (later ++ earlier)

variable {fits : Nat → Nat → Nat → Prop}

theorem Change.changes {st st' : RamFs} {es : List Effect} (h : Change fits st st' es) :
    Changes fits st st' es := by
  simpa using Changes.step (.refl st) h

theorem Changes.trans {st mid st' : RamFs} {earlier later : List Effect}
    (h1 : Changes fits st mid earlier) (h2 : Changes fits mid st' later) :
    Changes fits st st' (later ++ earlier) := by
  induction h2 with
  | refl => exact h1
  | step _ hchange ih => simpa using ih.step hchange

end Wirth.Kernel.Fs

import Wirth.Kernel.Fs.FailedOpen

namespace Wirth.Kernel.Fs

open Wirth.Lib

-- Copying a file chunk by chunk, as the shell and `kmain64` do it.

inductive CopyEnd where
  | noSource
  | noDestination
  | readError
  | writeError
  | finished
  deriving DecidableEq

-- The loop over the chunks. The heap is asked anew for each write.
def copyChunks (alloc : Nat → Allocator) (chunk : UInt32) (inFd outFd : Int) :
    Nat → Nat → RamFs → Ended (CopyEnd × RamFs)
  | 0, _, _ => .diverges
  | rounds + 1, k, fs => do
      let (n, bytes, fs) ← fs.read inFd true chunk
      if n < 0 then .returned (.readError, fs)
      else if n = 0 then .returned (.finished, fs)
      else do
        let (w, fs) ← fs.write (alloc k) outFd (some fun p => bytes.getD p 0) (UInt32.ofNat n.toNat)
        if w < 0 then .returned (.writeError, fs)
        else copyChunks alloc chunk inFd outFd rounds (k + 1) fs

def copyFlags : UInt32 := kOpenWrite ||| kOpenCreate ||| kOpenTruncate

def copyFile (alloc : Nat → Allocator) (chunk : UInt32) (fs : RamFs) (src dst : Option Str) :
    Ended (CopyEnd × RamFs) :=
  let (inFd, fs) := fs.openPath src kOpenRead
  if inFd < 0 then .returned (.noSource, fs)
  else
    let (outFd, fs) := fs.openPath dst copyFlags
    if outFd < 0 then .returned (.noDestination, (fs.close inFd).2)
    else do
      let (ending, fs) ← copyChunks alloc chunk inFd outFd (2 ^ 32) 0 fs
      .returned (ending, ((fs.close inFd).2.close outFd).2)

-- What becomes of a buffer of the given capacity when so much is required: it is enough, the heap
-- has a larger one or has none, or no capacity is ever large enough.
def room (alloc : Allocator) (capacity required : Nat) : Ended (Option Nat) :=
  if required ≤ capacity then .returned (some capacity)
  else
    match growCapacity 33 (if capacity = 0 then 64 else capacity) required with
    | none => .diverges
    | some newCapacity => .returned ((alloc.buffer newCapacity).map fun _ => newCapacity)

-- Whether the heap has all that is asked for while a file of that size is written chunk by chunk.
def fed (alloc : Nat → Allocator) (chunk size : Nat) : Nat → Nat → Nat → Nat → Ended Bool
  | 0, _, _, _ => .diverges
  | rounds + 1, k, capacity, offset =>
      if size ≤ offset then .returned true
      else do
        match ← room (alloc k) capacity (min (offset + chunk) size) with
        | none => .returned false
        | some capacity => fed alloc chunk size rounds (k + 1) capacity (min (offset + chunk) size)

theorem ensureCapacity_room {inode : Inode} (hsized : inode.WellSized) (alloc : Allocator)
    (required : Nat) :
    (∃ grown, room alloc inode.capacity required = .returned (some grown.capacity) ∧
        ensureCapacity alloc inode required = .returned (true, grown)) ∨
      room alloc inode.capacity required = .returned none ∧
        ensureCapacity alloc inode required = .returned (false, inode) ∨
      room alloc inode.capacity required = .diverges ∧
        ensureCapacity alloc inode required = .diverges := by
  by_cases henough : required ≤ inode.capacity
  · exact Or.inl ⟨inode, if_pos henough, if_pos henough⟩
  cases hgrow : growCapacity 33 (if inode.capacity = 0 then 64 else inode.capacity) required with
  | none =>
    simp [room, ensureCapacity, henough, hgrow]
  | some newCapacity =>
    cases hnew : alloc.buffer newCapacity with
    | none =>
      simp [room, ensureCapacity, henough, hgrow, hnew]
    | some newData =>
      obtain ⟨data, hgrown⟩ := ensureCapacity_grown hsized henough hgrow hnew
      simp [room, hgrown, henough, hgrow, hnew]

structure Inode.Appends (inode inode' : Inode) (bytes : List UInt8) : Prop where
  used_eq : inode'.used = inode.used
  kind_eq : inode'.isDirectory = inode.isDirectory
  name_eq : inode'.name = inode.name
  bytes_eq : inode'.bytes = inode.bytes ++ bytes
  sized : inode'.WellSized

theorem Inode.bytes_length {inode : Inode} (h : inode.WellSized) : inode.bytes.length = inode.size := by
  rw [Inode.bytes, List.length_take, h.buffer]
  exact Nat.min_eq_left h.size_le

theorem Inode.bytes_getElem? {inode : Inode} (h : inode.WellSized) {p : Nat} (hp : p < inode.size) :
    inode.bytes[p]? = some (inode.byteAt p) := by
  have := h.size_le
  have := h.buffer
  rw [Inode.bytes, List.getElem?_take_of_lt hp, Inode.byteAt, List.getD_eq_getElem?_getD,
    List.getElem?_eq_getElem (by omega), Option.getD_some]

theorem Inode.Stores.bytes_append {inode inode' : Inode} {bytes : List UInt8} (h : inode.WellSized)
    (hstores : inode.Stores inode' inode.size bytes) : inode'.bytes = inode.bytes ++ bytes := by
  have hsize : inode'.size = inode.size + bytes.length := by
    rw [hstores.size_eq]
    omega
  have hlength := Inode.bytes_length h
  refine List.ext_getElem? fun p => ?_
  by_cases hp : p < inode'.size
  · rw [Inode.bytes_getElem? hstores.sized hp]
    by_cases hold : p < inode.size
    · rw [hstores.kept p hold (by omega), List.getElem?_append_left (by omega),
        Inode.bytes_getElem? h hold]
    · rw [hstores.stored p (by omega) (by omega), List.getElem?_append_right (by omega), hlength,
        List.getD_eq_getElem?_getD, List.getElem?_eq_getElem (by omega), Option.getD_some]
  · rw [List.getElem?_eq_none (by rw [Inode.bytes_length hstores.sized]; omega),
      List.getElem?_eq_none (by rw [List.length_append]; omega)]

section Appending

variable {st : RamFs} {i : Fin kMaxInodes} {g : Fin kMaxFds} {flags : UInt32}

theorem write_end {alloc : Allocator} {bytes : List UInt8} {count : UInt32}
    (hdesc : st.fds g = ⟨true, some i, (st.inodes i).size, flags⟩)
    (hflags : flags &&& kOpenWrite ≠ 0) (hsized : (st.inodes i).WellSized)
    (hcount : count.toNat = bytes.length) (hsmall : bytes.length < 2 ^ 31)
    (hend : (st.inodes i).size + bytes.length < 2 ^ 32) :
    (∃ inode, (st.inodes i).Appends inode bytes ∧
        room alloc (st.inodes i).capacity ((st.inodes i).size + bytes.length) =
          .returned (some inode.capacity) ∧
        st.write alloc (g.val + kFdOffset) (some fun p => bytes.getD p 0) count =
          .returned (bytes.length, (st.setInode i inode).setFd g
            ⟨true, some i, (st.inodes i).size + bytes.length, flags⟩)) ∨
      room alloc (st.inodes i).capacity ((st.inodes i).size + bytes.length) = .returned none ∧
        st.write alloc (g.val + kFdOffset) (some fun p => bytes.getD p 0) count =
          .returned (-1, st) ∨
      room alloc (st.inodes i).capacity ((st.inodes i).size + bytes.length) = .diverges ∧
        st.write alloc (g.val + kFdOffset) (some fun p => bytes.getD p 0) count = .diverges := by
  have hsource : (List.range count.toNat).map (fun p => bytes.getD p 0) = bytes := by
    rw [hcount]
    refine List.ext_getElem (by simp) fun p hp _ => ?_
    grind
  have hstop : uint32 ((st.inodes i).size + bytes.length) = (st.inodes i).size + bytes.length :=
    uint32_eq_self hend
  unfold RamFs.write
  simp only [getFd_used (show (st.fds g).used = true by rw [hdesc]), hdesc, hsource]
  rw [if_neg hflags, hcount, hstop]
  rcases ensureCapacity_room hsized alloc ((st.inodes i).size + bytes.length) with
    ⟨grown, hroom, hensure⟩ | ⟨hroom, hensure⟩ | ⟨hroom, hensure⟩
  · have hfits := (ensureCapacity_returned hensure).2.2.2.2.2 rfl
    have hbuffer := (ensureCapacity_contents hsized hensure).1.buffer
    obtain ⟨data, hstore⟩ := @storeBytes_returns grown.data (st.inodes i).size bytes
      (fun _ => by omega)
    have hsizes := (ensureCapacity_returned hensure).2.2.2.1
    obtain ⟨_, hstores⟩ := stores_of_storeBytes hsized (by omega) (by rw [hstop]; exact hensure) hstore
    refine Or.inl ⟨_, ⟨hstores.used_eq, hstores.kind_eq, (ensureCapacity_returned hensure).2.2.1,
      hstores.bytes_append hsized, hstores.sized⟩, hroom, ?_⟩
    have hmax : (if grown.size < (st.inodes i).size + bytes.length then
        (st.inodes i).size + bytes.length else grown.size) =
        max (st.inodes i).size ((st.inodes i).size + bytes.length) := by
      split_ifs <;> omega
    simp only [hensure, hstore, Ended.returned_bind, Bool.true_eq_false, if_false, hmax]
    rw [int32_of_lt hsmall]
  · simp [RamFs.setInode, hroom, hensure]
  · refine Or.inr (Or.inr ⟨hroom, ?_⟩)
    rw [hensure]
    rfl

end Appending

-- The file system in the middle of a copy: the source is read up to one place, and the destination
-- is written up to another.
def copying (st : RamFs) (i j : Fin kMaxInodes) (f g : Fin kMaxFds) (inode : Inode)
    (readTo writtenTo : Nat) : RamFs :=
  ((st.setInode j inode).setFd f ⟨true, some i, readTo, kOpenRead⟩).setFd g
    ⟨true, some j, writtenTo, copyFlags⟩

section Copying

variable {st : RamFs} {i j : Fin kMaxInodes} {f g : Fin kMaxFds} {inode : Inode} {o p : Nat}

theorem copying_source (h : f ≠ g) :
    (copying st i j f g inode o p).fds f = ⟨true, some i, o, kOpenRead⟩ := by
  rw [copying, setFd_of_ne h, setFd_self]

theorem copying_destination :
    (copying st i j f g inode o p).fds g = ⟨true, some j, p, copyFlags⟩ := setFd_self

theorem copying_read (h : f ≠ g) (o' : Nat) :
    (copying st i j f g inode o p).setFd f ⟨true, some i, o', kOpenRead⟩ =
      copying st i j f g inode o' p := by
  simp only [copying, RamFs.setFd, RamFs.setInode]
  rw [Function.update_comm h.symm, Function.update_idem]

theorem copying_write (inode' : Inode) (p' : Nat) :
    ((copying st i j f g inode o p).setInode j inode').setFd g ⟨true, some j, p', copyFlags⟩ =
      copying st i j f g inode' o p' := by
  simp only [copying, RamFs.setFd, RamFs.setInode, Function.update_idem]

theorem copying_closed (h : f ≠ g) (hf : st.fds f = .empty) (hg : st.fds g = .empty) :
    (((copying st i j f g inode o p).close (f.val + kFdOffset)).2.close (g.val + kFdOffset)).2 =
      st.setInode j inode := by
  have hfirst : ((copying st i j f g inode o p).close (f.val + kFdOffset)).2 =
      (copying st i j f g inode o p).setFd f .empty := close_used (by rw [copying_source h])
  rw [hfirst, close_used (by rw [setFd_of_ne h.symm, copying_destination])]
  simp only [copying, RamFs.setFd, RamFs.setInode, RamFs.mk.injEq, true_and]
  funext k
  by_cases hkg : k = g
  · rw [hkg, Function.update_self, hg]
  grind

-- How the heap and the loop that copies the rest of a file end: with a whole copy, with part of
-- one, or not at all.
inductive CopyRuns (st : RamFs) (i j : Fin kMaxInodes) (f g : Fin kMaxFds) (inode : Inode)
    (rest : List UInt8) : Ended Bool → Ended (CopyEnd × RamFs) → Prop
  | whole {inode' : Inode} {o : Nat} (h : inode.Appends inode' rest) :
      CopyRuns st i j f g inode rest (.returned true)
        (.returned (.finished, copying st i j f g inode' o o))
  | part {inode' : Inode} {bytes : List UInt8} {o p : Nat} (h : inode.Appends inode' bytes)
      (hpart : bytes.length < rest.length) :
      CopyRuns st i j f g inode rest (.returned false)
        (.returned (.writeError, copying st i j f g inode' o p))
  | endless : CopyRuns st i j f g inode rest .diverges .diverges

theorem Inode.Appends.trans {inode mid inode' : Inode} {bytes rest : List UInt8}
    (h : inode.Appends mid bytes) (h' : mid.Appends inode' rest) :
    inode.Appends inode' (bytes ++ rest) where
  used_eq := h'.used_eq.trans h.used_eq
  kind_eq := h'.kind_eq.trans h.kind_eq
  name_eq := h'.name_eq.trans h.name_eq
  bytes_eq := by rw [h'.bytes_eq, h.bytes_eq, List.append_assoc]
  sized := h'.sized

theorem CopyRuns.after {mid : Inode} {bytes rest : List UInt8} {fed : Ended Bool}
    {result : Ended (CopyEnd × RamFs)} (h : inode.Appends mid bytes)
    (hruns : CopyRuns st i j f g mid rest fed result) :
    CopyRuns st i j f g inode (bytes ++ rest) fed result := by
  cases hruns with
  | whole hmid => exact .whole (h.trans hmid)
  | part hmid hpart => exact .part (h.trans hmid) (by simpa using hpart)
  | endless => exact .endless

variable {alloc : Nat → Allocator} {chunk : UInt32}

theorem copyChunks_runs (hij : i ≠ j) (hfg : f ≠ g)
    (hsource : (st.inodes i).WellSized) (hpos : 0 < chunk.toNat) (hchunk : chunk.toNat < 2 ^ 31)
    (hsized : inode.WellSized) (hbytes : inode.bytes = (st.inodes i).bytes.take inode.size)
    (hsize : inode.size ≤ (st.inodes i).size) (rounds k : Nat) :
    CopyRuns st i j f g inode ((st.inodes i).bytes.drop inode.size)
      (fed alloc chunk.toNat (st.inodes i).size rounds k inode.capacity inode.size)
      (copyChunks alloc chunk (f.val + kFdOffset) (g.val + kFdOffset) rounds k
        (copying st i j f g inode inode.size inode.size)) := by
  induction rounds generalizing inode k with
  | zero => exact .endless
  | succ rounds ih =>
    have hinode : (copying st i j f g inode inode.size inode.size).inodes i = st.inodes i :=
      setInode_of_ne hij
    have hread := read_next (copying_source hfg) (by decide) (by rw [hinode]; exact hsource) hchunk
    rw [hinode, copying_read hfg] at hread
    obtain ⟨bytes, hnext⟩ : ∃ bytes, bytes =
      ((st.inodes i).bytes.drop inode.size).take chunk.toNat := ⟨_, rfl⟩
    have hlength : bytes.length = min chunk.toNat ((st.inodes i).size - inode.size) := by
      rw [hnext, List.length_take, List.length_drop, Inode.bytes_length hsource]
    rw [← hnext] at hread
    rw [copyChunks, hread, fed]
    simp only [Ended.returned_bind]
    by_cases hend : (st.inodes i).size ≤ inode.size
    · have hlast : (st.inodes i).bytes.drop inode.size = [] :=
        List.drop_of_length_le (by rw [Inode.bytes_length hsource]; exact hend)
      have hnone : bytes.length = 0 := by omega
      rw [if_pos hend, hlast, hnone, if_neg (by decide), if_pos (by decide)]
      exact .whole ⟨rfl, rfl, rfl, (List.append_nil _).symm, hsized⟩
    have hsome : ¬(bytes.length : Int) = 0 := by omega
    have hcapacity := hsource.capacity_lt
    have hfull := hsource.size_le
    have hstop : min (inode.size + chunk.toNat) (st.inodes i).size = inode.size + bytes.length := by
      omega
    have hstarts : bytes <+: (st.inodes i).bytes.drop inode.size := by
      rw [hnext]
      exact List.take_prefix _ _
    have hrest : (st.inodes i).bytes.drop inode.size =
        bytes ++ (st.inodes i).bytes.drop (inode.size + bytes.length) := by
      rw [← List.drop_drop, List.prefix_iff_eq_append.mp hstarts]
    rw [if_neg hend, if_neg (by omega), if_neg hsome, hstop]
    have hfile : (copying st i j f g inode (inode.size + bytes.length) inode.size).inodes j = inode :=
      setInode_self
    have hwrite := @write_end (copying st i j f g inode (inode.size + bytes.length) inode.size) j g
      copyFlags (alloc k) bytes (UInt32.ofNat (bytes.length : Int).toNat)
      (by rw [hfile]; exact copying_destination) (by decide) (by rw [hfile]; exact hsized)
      (by grind [UInt32.toNat_ofNat_of_lt'])
      (by omega) (by rw [hfile]; omega)
    rw [hfile] at hwrite
    rcases hwrite with ⟨mid, happends, hroom, hwrite⟩ | ⟨hroom, hwrite⟩ | ⟨hroom, hwrite⟩
    · rw [copying_write] at hwrite
      rw [hroom, hwrite]
      simp only [Ended.returned_bind]
      rw [if_neg (by omega), hrest]
      have hmid : mid.size = inode.size + bytes.length := by
        rw [← Inode.bytes_length happends.sized, happends.bytes_eq, List.length_append,
          Inode.bytes_length hsized]
      rw [← hmid]
      refine (ih happends.sized ?_ (by omega) (k + 1)).after happends
      rw [happends.bytes_eq, hbytes, hmid, List.take_add, ← List.prefix_iff_eq_take.mp hstarts]
    · rw [hroom, hwrite]
      refine .part ⟨rfl, rfl, rfl, (List.append_nil _).symm, hsized⟩ ?_
      grind
    · rw [hroom, hwrite]
      exact .endless

-- A file that is its own destination has nothing in it any more when the first chunk is read.
theorem copyChunks_itself (hfg : f ≠ g)
    (hempty : inode.size = 0) (hsized : inode.WellSized) (hchunk : chunk.toNat < 2 ^ 31) :
    copyChunks alloc chunk (f.val + kFdOffset) (g.val + kFdOffset) (2 ^ 32) 0
      (copying st i i f g inode 0 0) = .returned (.finished, copying st i i f g inode 0 0) := by
  have hinode : (copying st i i f g inode 0 0).inodes i = inode := setInode_self
  have hread := read_next (copying_source hfg) (by decide) (by rw [hinode]; exact hsized) hchunk
  have hnone : inode.bytes = [] := by simp [Inode.bytes, hempty]
  rw [hinode, hnone, List.drop_nil, List.take_nil, List.length_nil, copying_read hfg] at hread
  rw [show (2 : Nat) ^ 32 = (2 ^ 32 - 1) + 1 from rfl, copyChunks, hread]
  rfl

end Copying

end Wirth.Kernel.Fs

import Wirth.Kernel.Fs.Changes

namespace Wirth.Kernel.Fs

open Wirth.Lib

-- What is known of the contents: the positions written since the file was created or last
-- truncated lie below its size, and the buffer has there what was written last.
structure RamFs.Contents (st : RamFs) (history : List Effect) : Prop where
  sized : ∀ i, (st.inodes i).WellSized
  offsets : ∀ f, (st.fds f).offset < 2 ^ 32
  kept : ∀ i, (st.inodes i).used → (st.inodes i).isDirectory = false → ∀ p v,
    lastWritten i p history = some v → p < (st.inodes i).size ∧ (st.inodes i).byteAt p = v

theorem lastWritten_other {i j : Fin kMaxInodes} (h : j ≠ i) (p : Nat) (history : List Effect) :
    lastWritten i p (.created j :: history) = lastWritten i p history ∧
      lastWritten i p (.truncated j :: history) = lastWritten i p history ∧
      ∀ offset bytes, lastWritten i p (.wrote j offset bytes :: history) = lastWritten i p history := by
  simp [lastWritten, h]

variable {fits : Nat → Nat → Nat → Prop}

variable {admitted : Allocator → Prop} {data : Option (List UInt8)} {alloc : Allocator} {st : RamFs}
  {allowed : RamFs → Call → Prop} {inode : Inode} {st' : RamFs} {fd : Int}
  {history es : List Effect}

theorem Change.contents (h : st.Contents history)
    (hchange : Change fits st st' es) : st'.Contents (es ++ history) := by
  have hset : ∀ {i : Fin kMaxInodes} {inode : Inode}, inode.WellSized →
      ∀ j, ((st.setInode i inode).inodes j).WellSized := forall_setInode _ h.sized
  cases hchange with
  | descriptor f desc hoffset _ =>
    refine ⟨h.sized, fun g => ?_, h.kept⟩
    by_cases hgf : g = f
    · rw [hgf, setFd_self]
      exact hoffset
    · rw [setFd_of_ne hgf]
      exact h.offsets g
  | makeFile i name hfree =>
    refine ⟨hset (emptyInode_wellSized _ _ _), h.offsets, fun j hj hfile p v hv => ?_⟩
    by_cases hji : j = i
    · subst hji
      simp [lastWritten] at hv
    · rw [setInode_of_ne hji] at hj hfile ⊢
      rw [List.singleton_append, (lastWritten_other (Ne.symm hji) p history).1] at hv
      exact h.kept j hj hfile p v hv
  | makeDirectory i name hfree =>
    refine ⟨hset (emptyInode_wellSized _ _ _), h.offsets, fun j hj hfile p v hv => ?_⟩
    by_cases hji : j = i
    · subst hji
      simp at hfile
    · rw [setInode_of_ne hji] at hj hfile ⊢
      exact h.kept j hj hfile p v hv
  | cut i =>
    have hsized := h.sized i
    refine ⟨hset ⟨hsized.buffer, Nat.zero_le _, hsized.capacity_lt⟩, h.offsets, fun j hj hfile p v hv => ?_⟩
    by_cases hji : j = i
    · subst hji
      simp [lastWritten] at hv
    · rw [setInode_of_ne hji] at hj hfile ⊢
      rw [List.singleton_append, (lastWritten_other (Ne.symm hji) p history).2.1] at hv
      exact h.kept j hj hfile p v hv
  | remove i inode hgone hsize hsized =>
    refine ⟨hset hsized, h.offsets, fun j hj hfile p v hv => ?_⟩
    by_cases hji : j = i
    · subst hji
      simp [hgone] at hj
    · rw [setInode_of_ne hji] at hj hfile ⊢
      exact h.kept j hj hfile p v hv
  | store i inode offset bytes hfits hstores =>
    refine ⟨hset hstores.sized, h.offsets, fun j hj hfile p v hv => ?_⟩
    by_cases hji : j = i
    · subst hji
      rw [setInode_self] at hj hfile ⊢
      rw [hstores.used_eq] at hj
      rw [hstores.kind_eq] at hfile
      rw [List.singleton_append, lastWritten] at hv
      by_cases hin : offset ≤ p ∧ p < offset + bytes.length
      · rw [if_pos ⟨rfl, hin⟩] at hv
        rw [hstores.size_eq, hstores.stored p hin.1 hin.2, List.getD_eq_getElem?_getD, hv]
        exact ⟨by omega, rfl⟩
      · rw [if_neg (fun hand => hin hand.2)] at hv
        obtain ⟨hlt, hbyte⟩ := h.kept j hj hfile p v hv
        rw [hstores.size_eq, hstores.kept p hlt hin]
        exact ⟨by omega, hbyte⟩
    · rw [setInode_of_ne hji] at hj hfile ⊢
      rw [List.singleton_append, (lastWritten_other (Ne.symm hji) p history).2.2] at hv
      exact h.kept j hj hfile p v hv

theorem Changes.contents (h : st.Contents history)
    (hchanges : Changes fits st st' es) : st'.Contents (es ++ history) := by
  induction hchanges with
  | refl => exact h
  | step _ hchange ih =>
    rw [List.append_assoc]
    exact hchange.contents ih

theorem cleared_contents : RamFs.cleared.Contents [] :=
  ⟨fun _ => emptyInode_wellSized _ _ _, fun _ => Nat.two_pow_pos 32, fun _ hi => by cases hi⟩

theorem initSeeds_fit (hfits : ∀ n, n < 2 ^ 31 → fits 0 0 n) (seed : Seed)
    (h : some seed ∈ initSeeds) : seed.Fits fits := by
  have hall : initSeeds.all (fun s => match s with
      | none => true
      | some (.dir path) => path.length < nameSize
      | some (.file path content) => path.length < nameSize ∧ content.length < 2 ^ 31) = true := by
    decide +kernel
  have hseed := List.all_eq_true.mp hall _ h
  cases seed with
  | dir path =>
    have hpath : path.length < nameSize := of_decide_eq_true hseed
    exact hpath
  | file path content =>
    obtain ⟨hpath, hcontent⟩ := of_decide_eq_true hseed
    exact ⟨hpath, by omega, hfits _ hcontent⟩

theorem Traced.changes {st : RamFs}
    {history : List Effect} (hseeds : ∀ n, n < 2 ^ 31 → fits 0 0 n)
    (hallowed : ∀ st c, allowed st c → st.writeFits fits c) (h : Traced admitted allowed st history) :
    Changes fits .cleared st history := by
  induction h with
  | init _ h => exact plantAll_changes (initSeeds_fit hseeds) h
  | @call st st' history c r hst hc h ih =>
    have hcontents := ih.contents cleared_contents
    exact ih.trans (call_changes (reachable_namespace hst.reachable) hcontents.sized
      hcontents.offsets (hallowed st c hc) h)

theorem Traced.contents {st : RamFs}
    {history : List Effect} (h : Traced admitted allowed st history) : st.Contents history := by
  have hchanges : Changes (fun _ _ _ => True) .cleared st history :=
    h.changes (fun _ _ => trivial) fun _ c _ => by
      cases c with
      | write alloc fd buf count => exact fun _ _ _ _ => trivial
      | _ => trivial
  simpa using hchanges.contents cleared_contents

-- What the heap and the callers have to do for every operation to return.

def Allocator.Succeeds (alloc : Allocator) : Prop := ∀ n, ∃ b, alloc.buffer n = some b

def staysBelow (_ offset count : Nat) : Prop := offset + count < 2 ^ 31

def Call.Served : Call → Prop
  | .write alloc _ _ _ => alloc.Succeeds
  | _ => True

def RamFs.Ordinary (st : RamFs) (c : Call) : Prop := st.writeFits staysBelow c ∧ c.Served

theorem growCapacity_returns {rounds capacity required : Nat} (hpos : 0 < capacity)
    (hrequired : required ≤ 2 ^ 31) (h : required ≤ capacity * 2 ^ rounds) :
    ∃ result, growCapacity (rounds + 1) capacity required = some result := by
  induction rounds generalizing capacity with
  | zero => exact ⟨capacity, by rw [growCapacity, if_neg (by omega)]⟩
  | succ rounds ih =>
    rw [growCapacity]
    by_cases hlt : capacity < required
    · rw [if_pos hlt, uint32_eq_self (by omega)]
      refine ih (by omega) ?_
      grind
    · exact ⟨capacity, if_neg hlt⟩

theorem storeBytes_returns {data : Option (List UInt8)} {offset : Nat} {bytes : List UInt8}
    (h : bytes ≠ [] → offset + bytes.length ≤ (data.getD []).length) :
    ∃ data', storeBytes data offset bytes = .returned data' := by
  unfold storeBytes
  by_cases hempty : bytes = []
  · exact ⟨data, if_pos hempty⟩
  have hpos := List.length_pos_iff.mpr hempty
  cases data with
  | none =>
    grind
  | some buffer =>
    rw [if_neg hempty]
    exact ⟨_, if_pos (h hempty)⟩

theorem loadBytes_returns {offset count : Nat}
    (h : 0 < count → offset + count ≤ (data.getD []).length) :
    ∃ bytes, loadBytes data offset count = .returned bytes := by
  unfold loadBytes
  by_cases hzero : count = 0
  · exact ⟨[], if_pos hzero⟩
  cases data with
  | none =>
    grind
  | some buffer =>
    rw [if_neg hzero]
    exact ⟨_, if_pos (h (by omega))⟩

theorem ensureCapacity_grown {required newCapacity : Nat}
    {newData : List UInt8} (hsized : inode.WellSized) (hmore : ¬required ≤ inode.capacity)
    (hgrow : growCapacity 33 (if inode.capacity = 0 then 64 else inode.capacity) required =
      some newCapacity) (hnew : alloc.buffer newCapacity = some newData) :
    ∃ data, ensureCapacity alloc inode required =
      .returned (true, { inode with data := data, capacity := newCapacity }) := by
  have hle := growCapacity_le hgrow
  have hsize := hsized.size_le
  have hkept : ∃ kept, inode.contents = .returned kept ∧ kept.length ≤ inode.size := by
    unfold Inode.contents
    split_ifs with hsome
    · obtain ⟨kept, hload⟩ := @loadBytes_returns inode.data 0 inode.size
        (by rw [hsized.buffer]; omega)
      exact ⟨kept, hload, (loadBytes_returned hload).1.le⟩
    · exact ⟨[], rfl, Nat.zero_le _⟩
  obtain ⟨kept, hcontents, hlength⟩ := hkept
  obtain ⟨data, hstore⟩ := @storeBytes_returns (some newData) 0 kept
    (by rw [Option.getD_some, alloc.length_eq hnew]; omega)
  refine ⟨data, ?_⟩
  rw [ensureCapacity, if_neg hmore]
  simp only [hgrow, hnew, hcontents, hstore, Ended.returned_bind]

theorem ensureCapacity_returns {alloc : Allocator} {inode : Inode} {required : Nat}
    (hsized : inode.WellSized) (hrequired : required ≤ 2 ^ 31) :
    ∃ ok grown, ensureCapacity alloc inode required = .returned (ok, grown) ∧
      (alloc.Succeeds → ok = true) := by
  by_cases henough : required ≤ inode.capacity
  · exact ⟨true, inode, if_pos henough, fun _ => rfl⟩
  obtain ⟨newCapacity, hgrow⟩ := @growCapacity_returns 32 (if inode.capacity = 0 then 64
    else inode.capacity) required (by split_ifs <;> omega) hrequired (by split_ifs <;> omega)
  cases hnew : alloc.buffer newCapacity with
  | none =>
    refine ⟨false, inode, ?_, fun halloc => ?_⟩
    · rw [ensureCapacity, if_neg henough]
      simp only [hgrow, hnew]
    · obtain ⟨newData, hsome⟩ := halloc newCapacity
      rw [hnew] at hsome
      cases hsome
  | some newData =>
    grind [ensureCapacity_grown]

-- A write that reaches no further than 2 GiB returns, whether the heap has a buffer or not.
theorem write_returns {alloc : Allocator} {fd : Int} {buf : Option (Nat → UInt8)}
    {count : UInt32} (hsized : ∀ i, (st.inodes i).WellSized)
    (hfits : ∀ f i, st.getFd fd = some f → (st.fds f).inode = some i →
      (st.fds f).offset + count.toNat ≤ 2 ^ 31) :
    ∃ r st', st.write alloc fd buf count = .returned (r, st') := by
  unfold RamFs.write
  cases buf with
  | none => exact ⟨_, _, rfl⟩
  | some source =>
    cases hf : st.getFd fd with
    | none => exact ⟨_, _, rfl⟩
    | some f =>
      simp only
      cases hi : (st.fds f).inode with
      | none => exact ⟨_, _, rfl⟩
      | some i =>
        simp only
        by_cases hflags : (st.fds f).flags &&& kOpenWrite = 0
        · exact ⟨_, _, if_pos hflags⟩
        rw [if_neg hflags]
        have hbelow := hfits f i hf hi
        have hstop : uint32 ((st.fds f).offset + count.toNat) =
            (st.fds f).offset + count.toNat := uint32_eq_self (by omega)
        obtain ⟨ok, grown, hensure, _⟩ := @ensureCapacity_returns alloc (st.inodes i)
          (uint32 ((st.fds f).offset + count.toNat)) (hsized i) (by omega)
        cases ok with
        | false =>
          simp [hensure]
        | true =>
          have hroom := (ensureCapacity_returned hensure).2.2.2.2.2 rfl
          have hbuffer := (ensureCapacity_contents (hsized i) hensure).1.buffer
          obtain ⟨data, hstore⟩ := @storeBytes_returns grown.data (st.fds f).offset
            ((List.range count.toNat).map source) (by
              grind)
          simp [hensure, hstore]

theorem read_returns {buf : Bool} {count : UInt32}
    (hsized : ∀ i, (st.inodes i).WellSized) : ∃ p, st.read fd buf count = .returned p := by
  unfold RamFs.read
  by_cases hbuf : buf = false
  · exact ⟨_, if_pos hbuf⟩
  rw [if_neg hbuf]
  cases hf : st.getFd fd with
  | none => exact ⟨_, rfl⟩
  | some f =>
    simp only
    cases hi : (st.fds f).inode with
    | none => exact ⟨_, rfl⟩
    | some i =>
      simp only
      by_cases hflags : (st.fds f).flags &&& kOpenRead = 0
      · exact ⟨_, if_pos hflags⟩
      rw [if_neg hflags]
      by_cases hend : (st.inodes i).size ≤ (st.fds f).offset
      · exact ⟨_, if_pos hend⟩
      rw [if_neg hend]
      obtain ⟨bytes, hload⟩ := @loadBytes_returns (st.inodes i).data (st.fds f).offset
        (min count.toNat ((st.inodes i).size - (st.fds f).offset)) (by
          rw [(hsized i).buffer]
          have := (hsized i).size_le
          omega)
      rw [hload]
      exact ⟨_, rfl⟩

theorem call_returns {c : Call} (hsized : ∀ i, (st.inodes i).WellSized)
    (hc : st.Ordinary c) : ∃ r st', st.call c = .returned (r, st') := by
  cases c with
  | read fd buf count =>
    obtain ⟨p, hread⟩ := @read_returns st fd buf count hsized
    simp [RamFs.call, hread]
  | write alloc fd buf count => exact write_returns hsized fun f i hf hi => (hc.1 f i hf hi).le
  | _ => exact ⟨_, _, rfl⟩

theorem Changes.small (h : ∀ i, (st.inodes i).size < 2 ^ 31)
    (hchanges : Changes staysBelow st st' es) : ∀ i, (st'.inodes i).size < 2 ^ 31 := by
  induction hchanges with
  | refl => exact h
  | @step mid st' _ _ _ hchange ih =>
    have hset : ∀ {i : Fin kMaxInodes} {inode : Inode}, inode.size < 2 ^ 31 →
        ∀ j, ((mid.setInode i inode).inodes j).size < 2 ^ 31 :=
      forall_setInode (·.size < 2 ^ 31) ih
    cases hchange with
    | descriptor f desc _ _ => exact ih
    | makeFile | makeDirectory | cut => exact hset (Nat.two_pow_pos 31)
    | remove i inode _ hsize _ => grind
    | store i inode offset bytes hfits hstores =>
      refine hset ?_
      have hbelow : offset + bytes.length < 2 ^ 31 := hfits
      have := ih i
      rw [hstores.size_eq]
      omega

theorem int32_of_lt {n : Nat} (h : n < 2 ^ 31) : int32 n = n := by
  exact Int.bmod_eq_of_le (by omega) (by omega)

theorem descriptor_file {f : Fin kMaxFds} {i : Fin kMaxInodes}
    (hst : st.Namespace) (hf : st.getFd fd = some f) (hi : (st.fds f).inode = some i) :
    (st.inodes i).used ∧ (st.inodes i).isDirectory = false := by
  obtain ⟨k, hk, hfile⟩ := hst.descriptors f (getFd_some hf)
  grind

-- A read hands out what lies between the descriptor's offset and the end of the file, and each
-- byte of it that was ever written is the one written last.
theorem read_latest {st : RamFs} {history : List Effect}
    (h : Traced Allocator.Succeeds RamFs.Ordinary st history) :
    (∀ c, st.Ordinary c → ∃ r st', st.call c = .returned (r, st')) ∧
      ∀ fd f i count, st.getFd fd = some f → (st.fds f).inode = some i →
        (st.fds f).flags &&& kOpenRead ≠ 0 → ∃ bytes,
          st.read fd true count = .returned
            ((min count.toNat ((st.inodes i).size - (st.fds f).offset) : Nat), bytes,
              st.setFd f { st.fds f with
                offset := (st.fds f).offset +
                  min count.toNat ((st.inodes i).size - (st.fds f).offset) }) ∧
          bytes.length = min count.toNat ((st.inodes i).size - (st.fds f).offset) ∧
          ∀ j v, j < bytes.length → lastWritten i ((st.fds f).offset + j) history = some v →
            bytes[j]? = some v := by
  have hcontents := h.contents
  have hsmall : ∀ i, (st.inodes i).size < 2 ^ 31 :=
    Changes.small (fun _ => Nat.two_pow_pos 31)
      (h.changes (fun n hn => by rw [staysBelow, Nat.zero_add]; exact hn) fun _ _ hc => hc.1)
  refine ⟨fun c hc => call_returns hcontents.sized hc, fun fd f i count hf hi hflags => ?_⟩
  obtain ⟨⟨r, bytes, st'⟩, hread⟩ := @read_returns st fd true count hcontents.sized
  obtain ⟨n, hn, hr, hlength, hst', hbytes⟩ := read_returned hf hi hflags hread
  have hsize := hsmall i
  rw [hr, hst', int32_of_lt (by omega), hn] at hread
  rw [hn] at hlength hbytes
  refine ⟨bytes, hread, hlength, fun j v hj hv => ?_⟩
  obtain ⟨hused, hfile⟩ := descriptor_file (reachable_namespace h.reachable) hf hi
  rw [hbytes j (by omega), (hcontents.kept i hused hfile _ v hv).2]

-- The places that the first file and the first two descriptors after `init` get.
def fileSlot : Fin kMaxInodes := ⟨41, by decide⟩

def firstFd : Fin kMaxFds := ⟨0, by decide⟩

def secondFd : Fin kMaxFds := ⟨1, by decide⟩

def sharedPath : Option Str := some (lit "/f")

def threeBytes : Option (Nat → UInt8) := some fun k => UInt8.ofNat (7 + k)

-- Three bytes are written through one descriptor, and then another is opened.
theorem shared_traced
    (hadmitted : admitted zeroed) (hopen : ∀ st path flags, allowed st (.openPath path flags))
    (hwrites : ∀ st : RamFs, st.getFd 3 = some firstFd → (st.fds firstFd).offset = 0 →
      allowed st (.write zeroed 3 threeBytes 3)) :
    ∃ st history st', Traced admitted allowed st history ∧ st.getFd 4 = some secondFd ∧
      st.fds secondFd = ⟨true, some fileSlot, 0, kOpenRead⟩ ∧ (st.inodes fileSlot).size = 3 ∧
      lastWritten fileSlot 1 history = some 8 ∧ st.read 4 true 2 = .returned (2, [7, 8], st') := by
  have hrun : (RamFs.init (fun _ => zeroed) >>= fun p =>
      (p.2.openPath sharedPath 6).2.write zeroed 3 threeBytes 3 >>= fun q =>
        (q.2.openPath sharedPath 1).2.read 4 true 2 >>= fun t =>
          .returned ((p.2.openPath sharedPath 6).2.getFd 3 = some firstFd &&
            ((p.2.openPath sharedPath 6).2.fds firstFd).offset = 0 &&
            (q.2.openPath sharedPath 1).2.getFd 4 = some secondFd &&
            (q.2.openPath sharedPath 1).2.fds secondFd = ⟨true, some fileSlot, 0, kOpenRead⟩ &&
            ((q.2.openPath sharedPath 1).2.inodes fileSlot).size = 3 &&
            (t.1, t.2.1) = (2, [7, 8]) &&
            lastWritten fileSlot 1 (q.2.openEffects sharedPath 1 ++
              ((p.2.openPath sharedPath 6).2.writeEffects zeroed 3 threeBytes 3 ++
                (p.2.openEffects sharedPath 6 ++ RamFs.initEffects fun _ => zeroed))) = some 8))
      = .returned true := by
    decide +kernel
  simp only [Ended.bind_eq_returned, Ended.returned.injEq, Bool.and_eq_true, decide_eq_true_eq,
    Prod.mk.injEq] at hrun
  obtain ⟨⟨ok, booted⟩, hinit, ⟨n, written⟩, hwrite, ⟨r, bytes, st'⟩, hread,
    ⟨⟨⟨⟨⟨hfirst, hstart⟩, hsecond⟩, hdesc⟩, hsize⟩, hr, hbytes⟩, hlast⟩ := hrun
  have hbooted : Traced admitted allowed booted (RamFs.initEffects fun _ => zeroed) :=
    .init (fun _ => hadmitted) hinit
  have hopened := Traced.call (c := .openPath sharedPath 6) hbooted (hopen _ _ _) rfl
  have hwritten := Traced.call (c := .write zeroed 3 threeBytes 3) hopened
    (hwrites _ hfirst hstart) hwrite
  have hshared := Traced.call (c := .openPath sharedPath 1) hwritten (hopen _ _ _) rfl
  subst hr hbytes
  exact ⟨_, _, st', hshared, hsecond, hdesc, hsize, hlast, hread⟩

theorem read_latest_shared : ∃ st history bytes st',
    Traced Allocator.Succeeds RamFs.Ordinary st history ∧ st.getFd 4 = some secondFd ∧
      (st.fds secondFd).inode = some fileSlot ∧ lastWritten fileSlot 1 history = some 8 ∧
      st.read 4 true 2 = .returned (2, bytes, st') ∧ bytes[1]? = some 8 := by
  have hserved : zeroed.Succeeds := fun n => ⟨_, rfl⟩
  obtain ⟨st, history, _, hshared, hfd, hdesc, hsize, hlast, _⟩ :=
    @shared_traced Allocator.Succeeds RamFs.Ordinary hserved
      (fun _ _ _ => ⟨trivial, trivial⟩) fun st hfirst hstart => by
        refine ⟨fun f i hf _ => ?_, hserved⟩
        rw [hfirst, Option.some.injEq] at hf
        rw [← hf, hstart]
        exact (by decide : 0 + (3 : UInt32).toNat < 2 ^ 31)
  obtain ⟨bytes, hread, hlength, hbytes⟩ := (read_latest hshared).2 4 secondFd fileSlot 2 hfd
    (by rw [hdesc]) (by rw [hdesc]; decide)
  rw [hdesc, hsize] at hread hlength
  refine ⟨st, history, bytes, _, hshared, hfd, by rw [hdesc], hlast, hread, ?_⟩
  exact hbytes 1 8 (by rw [hlength]; decide) (by rw [hdesc]; exact hlast)

-- A descriptor keeps its offset when the file is truncated through another. What is written
-- there afterwards brings back the old bytes before it.

def startsInside (size offset _ : Nat) : Prop := offset ≤ size

theorem Change.written
    (hfits : ∀ size offset count, fits size offset count → offset ≤ size)
    (h : ∀ i p, (st.inodes i).used → (st.inodes i).isDirectory = false → p < (st.inodes i).size →
      lastWritten i p history ≠ none) (hchange : Change fits st st' es) :
    ∀ i p, (st'.inodes i).used → (st'.inodes i).isDirectory = false → p < (st'.inodes i).size →
      lastWritten i p (es ++ history) ≠ none := by
  intro j p hj hfile hp
  cases hchange with
  | descriptor f desc _ _ => exact h j p hj hfile hp
  | makeFile i name _ | cut i =>
    by_cases hji : j = i
    · rw [hji, setInode_self] at hp
      exact absurd hp (Nat.not_lt_zero p)
    · rw [setInode_of_ne hji] at hj hfile hp
      simp [lastWritten_other, Ne.symm, hji, h, hj, hfile, hp]
  | makeDirectory i name _ =>
    by_cases hji : j = i
    · rw [hji, setInode_self] at hp
      exact absurd hp (Nat.not_lt_zero p)
    grind [setInode_of_ne]
  | remove i inode _ hsize _ =>
    by_cases hji : j = i
    · rw [hji, setInode_self, hsize] at hp
      exact absurd hp (Nat.not_lt_zero p)
    grind [setInode_of_ne]
  | store i inode offset bytes hplace hstores =>
    by_cases hji : j = i
    · subst hji
      rw [setInode_self] at hj hfile hp
      rw [hstores.used_eq] at hj
      rw [hstores.kind_eq] at hfile
      rw [hstores.size_eq] at hp
      rw [List.singleton_append, lastWritten]
      by_cases hin : offset ≤ p ∧ p < offset + bytes.length
      · rw [if_pos ⟨rfl, hin⟩, List.getElem?_eq_getElem (by omega)]
        exact Option.some_ne_none _
      grind
    · rw [setInode_of_ne hji] at hj hfile hp
      simp [lastWritten_other, Ne.symm, hji, h, hj, hfile, hp]

theorem Changes.written
    (hfits : ∀ size offset count, fits size offset count → offset ≤ size)
    (h : ∀ i p, (st.inodes i).used → (st.inodes i).isDirectory = false → p < (st.inodes i).size →
      lastWritten i p history ≠ none) (hchanges : Changes fits st st' es) :
    ∀ i p, (st'.inodes i).used → (st'.inodes i).isDirectory = false → p < (st'.inodes i).size →
      lastWritten i p (es ++ history) ≠ none := by
  induction hchanges with
  | refl => exact h
  | step _ hchange ih =>
    rw [List.append_assoc]
    exact hchange.written hfits ih

-- When every write starts within the file or at its end, a read returns at each position what
-- was written there last, and 0 where nothing was.
theorem read_unwritten {st st' : RamFs} {history : List Effect}
    (h : Traced (fun _ => True) (RamFs.writeFits startsInside) st history) {fd r : Int}
    {count : UInt32} {f : Fin kMaxFds} {i : Fin kMaxInodes} {bytes : List UInt8}
    (hf : st.getFd fd = some f) (hi : (st.fds f).inode = some i)
    (hread : st.read fd true count = .returned (r, bytes, st')) (j : Nat) (hj : j < bytes.length) :
    bytes[j]? = some ((lastWritten i ((st.fds f).offset + j) history).getD 0) := by
  have hwritten : ∀ i p, (st.inodes i).used → (st.inodes i).isDirectory = false →
      p < (st.inodes i).size → lastWritten i p history ≠ none := by
    have hchanges : Changes startsInside .cleared st history :=
      h.changes (fun _ _ => Nat.zero_le _) fun _ _ hc => hc
    have hempty : ∀ i p, (RamFs.cleared.inodes i).used → (RamFs.cleared.inodes i).isDirectory = false →
        p < (RamFs.cleared.inodes i).size → lastWritten i p [] ≠ none := fun _ _ hi => by cases hi
    have := hchanges.written (fun _ _ _ hplace => hplace) hempty
    rwa [List.append_nil] at this
  obtain ⟨hused, hfile⟩ := descriptor_file (reachable_namespace h.reachable) hf hi
  have hflags : (st.fds f).flags &&& kOpenRead ≠ 0 := by
    intro hflags
    simp only [RamFs.read, hf, hi, hflags, Bool.true_eq_false, if_false, if_true] at hread
    cases hread
    exact absurd hj (Nat.not_lt_zero j)
  obtain ⟨n, hn, _, hlength, _, hbytes⟩ := read_returned hf hi hflags hread
  obtain ⟨v, hv⟩ := Option.ne_none_iff_exists'.mp
    (hwritten i ((st.fds f).offset + j) hused hfile (by omega))
  rw [hbytes j (by omega), (h.contents.kept i hused hfile _ v hv).2, hv, Option.getD_some]

theorem read_unwritten_shared : ∃ st history st',
    Traced (fun _ => True) (RamFs.writeFits startsInside) st history ∧
      st.getFd 4 = some secondFd ∧ (st.fds secondFd).inode = some fileSlot ∧
      st.read 4 true 2 = .returned (2, [7, 8], st') ∧
      some 8 = some ((lastWritten fileSlot ((st.fds secondFd).offset + 1) history).getD 0) := by
  obtain ⟨st, history, st', hshared, hfd, hdesc, _, _, hread⟩ :=
    @shared_traced (fun _ => True) (RamFs.writeFits startsInside) trivial
      (fun _ _ _ => trivial) fun st hfirst hstart => by
        intro f i hf _
        rw [hfirst, Option.some.injEq] at hf
        rw [← hf, hstart]
        exact Nat.zero_le _
  have hinode : (st.fds secondFd).inode = some fileSlot := by rw [hdesc]
  exact ⟨st, history, st', hshared, hfd, hinode, hread,
    read_unwritten hshared hfd hinode hread 1 (by decide)⟩

def thirdFd : Fin kMaxFds := ⟨2, by decide⟩

-- Three bytes are written and the file is truncated through a second descriptor. Once the first
-- one writes again, what was cut off can be read.
theorem truncated_bytes_return : ∃ st history bytes st',
    Traced (fun _ => True) (fun _ _ => True) st history ∧ st.getFd 5 = some thirdFd ∧
      st.fds thirdFd = ⟨true, some fileSlot, 0, kOpenRead⟩ ∧
      st.read 5 true 1 = .returned (1, bytes, st') ∧ lastWritten fileSlot 0 history = none ∧
      bytes[0]? = some 7 := by
  have hrun : (RamFs.init (fun _ => zeroed) >>= fun p =>
      (p.2.openPath sharedPath 6).2.write zeroed 3 threeBytes 3 >>= fun q =>
        (q.2.openPath sharedPath 10).2.write zeroed 3 threeBytes 1 >>= fun s =>
          (s.2.openPath sharedPath 1).2.read 5 true 1 >>= fun t =>
            .returned ((s.2.openPath sharedPath 1).2.getFd 5,
              (s.2.openPath sharedPath 1).2.fds thirdFd, t.1, t.2.1,
              lastWritten fileSlot 0 (s.2.openEffects sharedPath 1 ++
                ((q.2.openPath sharedPath 10).2.writeEffects zeroed 3 threeBytes 1 ++
                  (q.2.openEffects sharedPath 10 ++
                    ((p.2.openPath sharedPath 6).2.writeEffects zeroed 3 threeBytes 3 ++
                      (p.2.openEffects sharedPath 6 ++ RamFs.initEffects fun _ => zeroed)))))))
      = .returned (some thirdFd, ⟨true, some fileSlot, 0, kOpenRead⟩, 1, [7], none) := by
    decide +kernel
  simp only [Ended.bind_eq_returned, Ended.returned.injEq, Prod.mk.injEq] at hrun
  obtain ⟨⟨ok, booted⟩, hinit, ⟨m, written⟩, hwrite, ⟨n, extended⟩, hextend, ⟨r, bytes, st'⟩, hread,
    hfd, hdesc, hr, hbytes, hlast⟩ := hrun
  have hbooted : Traced (fun _ => True) (fun _ _ => True) booted (RamFs.initEffects fun _ => zeroed) :=
    .init (fun _ => trivial) hinit
  have hopened := Traced.call (c := .openPath sharedPath 6) hbooted trivial rfl
  have hwritten := Traced.call (c := .write zeroed 3 threeBytes 3) hopened trivial hwrite
  have hcut := Traced.call (c := .openPath sharedPath 10) hwritten trivial rfl
  have hextended := Traced.call (c := .write zeroed 3 threeBytes 1) hcut trivial hextend
  have hreader := Traced.call (c := .openPath sharedPath 1) hextended trivial rfl
  simp only at hr hbytes
  subst hr hbytes
  exact ⟨_, _, [7], st', hreader, hfd, hdesc, hread, hlast, rfl⟩

end Wirth.Kernel.Fs

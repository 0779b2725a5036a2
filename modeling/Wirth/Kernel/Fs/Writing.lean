import Wirth.Kernel.Fs.Files

namespace Wirth.Kernel.Fs

open Wirth.Lib

def Doubled (capacity : Nat) : Prop := capacity = 0 ∨ ∃ k, 6 ≤ k ∧ k ≤ 31 ∧ capacity = 2 ^ k

section Capacities

variable {alloc : Allocator} {capacity : Nat} {inode inode' : Inode} {required : Nat} {ok : Bool}

theorem Doubled.le (h : Doubled capacity) : capacity ≤ 2 ^ 31 := by
  rcases h with rfl | ⟨k, -, hk, rfl⟩
  · exact Nat.zero_le _
  · exact Nat.pow_le_pow_right (by decide) hk

theorem Doubled.double (h : Doubled capacity) : Doubled (uint32 (capacity * 2)) := by
  rcases h with rfl | ⟨k, hlow, hhigh, rfl⟩
  · exact .inl rfl
  · rw [← Nat.pow_succ]
    by_cases hlast : k = 31
    · subst hlast
      exact .inl rfl
    · have hlt : 2 ^ (k + 1) < 2 ^ 32 := Nat.pow_lt_pow_right (by decide) (by omega)
      rw [uint32_eq_self hlt]
      exact .inr ⟨k + 1, by omega, by omega, rfl⟩

theorem growCapacity_doubled {rounds capacity required result : Nat} (hcapacity : Doubled capacity)
    (h : growCapacity rounds capacity required = some result) : Doubled result := by
  induction rounds generalizing capacity with
  | zero => cases h
  | succ rounds ih =>
    rw [growCapacity] at h
    split_ifs at h with hlt
    · exact ih hcapacity.double h
    grind

theorem ensureCapacity_cases
    (h : ensureCapacity alloc inode required = .returned (ok, inode')) :
    ok = true ∧ inode' = inode ∨
    ∃ newCapacity, growCapacity 33 (if inode.capacity = 0 then 64 else inode.capacity) required =
        some newCapacity ∧
      (alloc.buffer newCapacity = none ∧ inode' = inode ∨
        ok = true ∧ inode'.capacity = newCapacity) := by
  unfold ensureCapacity at h
  by_cases henough : required ≤ inode.capacity
  · grind
  rw [if_neg henough] at h
  split at h
  · cases h
  rename_i newCapacity hgrow
  refine .inr ⟨newCapacity, hgrow, ?_⟩
  split at h
  · grind
  grind [Ended.bind_eq_returned]

theorem ensureCapacity_doubled
    (hcapacity : Doubled inode.capacity)
    (h : ensureCapacity alloc inode required = .returned (ok, inode')) : Doubled inode'.capacity := by
  have hstart : Doubled (if inode.capacity = 0 then 64 else inode.capacity) := by
    split_ifs
    · exact .inr ⟨6, le_refl _, by decide, rfl⟩
    · exact hcapacity
  grind [ensureCapacity_cases, growCapacity_doubled]

theorem ensureCapacity_ok
    (halloc : alloc.Succeeds) (h : ensureCapacity alloc inode required = .returned (ok, inode')) :
    ok = true := by
  obtain ⟨hok, _⟩ | ⟨newCapacity, _, ⟨hnone, _⟩ | ⟨hok, _⟩⟩ := ensureCapacity_cases h
  · exact hok
  · obtain ⟨buffer, hbuffer⟩ := halloc newCapacity
    rw [hnone] at hbuffer
    cases hbuffer
  · exact hok

end Capacities

namespace RamFs

variable {st st' : RamFs} {alloc : Allocator} {fd r : Int} {buf : Option (Nat → UInt8)}
  {count : UInt32} {f : Fin kMaxFds} {i : Fin kMaxInodes} {source : Nat → UInt8}

structure Writable (st : RamFs) (fd : Int) (f : Fin kMaxFds) (i : Fin kMaxInodes) : Prop where
  fd_eq : st.getFd fd = some f
  inode_eq : (st.fds f).inode = some i
  flags_ne : (st.fds f).flags &&& kOpenWrite ≠ 0

-- The bytes are in the file at the offset, the descriptor stands behind them, and everything else
-- is as before.
structure Written (st st' : RamFs) (f : Fin kMaxFds) (i : Fin kMaxInodes) (bytes : List UInt8) :
    Prop where
  file : (st.inodes i).Stores (st'.inodes i) (st.fds f).offset bytes
  name : (st'.inodes i).name = (st.inodes i).name
  inside : (st.fds f).offset + bytes.length ≤ ((st'.inodes i).data.getD []).length
  descriptor : st'.fds f = { st.fds f with offset := (st.fds f).offset + bytes.length }
  files : ∀ j, j ≠ i → st'.inodes j = st.inodes j
  descriptors : ∀ g, g ≠ f → st'.fds g = st.fds g

def ExactWrite (st : RamFs) (alloc : Allocator) (fd : Int) (buf : Option (Nat → UInt8))
    (count : UInt32) : Prop :=
  ∃ r st', st.write alloc fd buf count = .returned (r, st') ∧
    (r = -1 ∧ st' = st ∨
      ∃ f i source, st.Writable fd f i ∧ buf = some source ∧ r = int32 count.toNat ∧
        Written st st' f i ((List.range count.toNat).map source))

section Write

theorem write_refused (h : ∀ f i source, buf = some source → ¬st.Writable fd f i) :
    st.write alloc fd buf count = .returned (-1, st) := by
  unfold write
  cases buf with
  | none => rfl
  | some source =>
    cases hf : st.getFd fd with
    | none => rfl
    | some f =>
      simp only
      cases hi : (st.fds f).inode with
      | none => rfl
      | some i =>
        simp only
        by_cases hflags : (st.fds f).flags &&& kOpenWrite = 0
        · rw [if_pos hflags]
        · exact absurd ⟨hf, hi, hflags⟩ (h f i source rfl)

theorem write_eq (h : st.Writable fd f i) :
    st.write alloc fd (some source) count =
      (ensureCapacity alloc (st.inodes i) (uint32 ((st.fds f).offset + count.toNat)) >>= fun p =>
        if p.1 = false then .returned (-1, st.setInode i p.2)
        else storeBytes p.2.data (st.fds f).offset ((List.range count.toNat).map source) >>= fun data =>
          .returned (int32 count.toNat, (st.setInode i { p.2 with
            data := data
            size := if p.2.size < uint32 ((st.fds f).offset + count.toNat) then
              uint32 ((st.fds f).offset + count.toNat) else p.2.size }).setFd f
            { st.fds f with offset := uint32 ((st.fds f).offset + count.toNat) })) := by
  unfold write
  simp only [h.fd_eq, h.inode_eq, if_neg h.flags_ne]

theorem write_returned (h : st.Writable fd f i) (hsized : (st.inodes i).WellSized)
    (hoffset : (st.fds f).offset < 2 ^ 32)
    (hwrite : st.write alloc fd (some source) count = .returned (r, st')) :
    ∃ ok grown, ensureCapacity alloc (st.inodes i) (uint32 ((st.fds f).offset + count.toNat)) =
        .returned (ok, grown) ∧
      (ok = false ∧ r = -1 ∧ st' = st ∨
        ok = true ∧ r = int32 count.toNat ∧ (st'.inodes i).capacity = grown.capacity ∧
          uint32 ((st.fds f).offset + count.toNat) = (st.fds f).offset + count.toNat ∧
          Written st st' f i ((List.range count.toNat).map source)) := by
  rw [write_eq h, Ended.bind_eq_returned] at hwrite
  obtain ⟨⟨ok, grown⟩, hensure, hwrite⟩ := hwrite
  refine ⟨ok, grown, hensure, ?_⟩
  cases ok with
  | false =>
    obtain rfl := (ensureCapacity_contents hsized hensure).2.2 rfl
    rw [if_pos rfl, Ended.returned.injEq, Prod.mk.injEq] at hwrite
    refine .inl ⟨rfl, hwrite.1.symm, ?_⟩
    rw [← hwrite.2, setInode, Function.update_eq_self]
  | true =>
    rw [if_neg (by simp)] at hwrite
    simp only [Ended.bind_eq_returned, Ended.returned.injEq, Prod.mk.injEq] at hwrite
    obtain ⟨data, hstore, hr, rfl⟩ := hwrite
    have hcount : ((List.range count.toNat).map source).length = count.toNat := by simp
    have hstored := @stores_of_storeBytes alloc (st.inodes i) grown (st.fds f).offset _ data hsized
      hoffset (by rw [hcount]; exact hensure) hstore
    rw [hcount] at hstored
    obtain ⟨hstop, hstores⟩ := hstored
    obtain ⟨_, _, hname, hsize, _⟩ := ensureCapacity_returned hensure
    have hmax : (if grown.size < uint32 ((st.fds f).offset + count.toNat) then
        uint32 ((st.fds f).offset + count.toNat) else grown.size) =
        max (st.inodes i).size ((st.fds f).offset + count.toNat) := by
      split_ifs <;> omega
    rw [hmax]
    refine .inr ⟨rfl, hr.symm, by simp, hstop, ?_, ?_, ?_, ?_, ?_, ?_⟩
    · simpa using hstores
    · simpa using hname
    · have hbuffer := hstores.sized.buffer
      grind [setFd_inodes, setInode_self]
    · rw [setFd_self, hcount, hstop]
    · intro j hj
      exact setInode_of_ne hj
    · intro g hg
      exact setFd_of_ne hg

end Write

-- The buffers are as long as the inodes say, and their lengths come from doubling.
structure Sound (st : RamFs) : Prop where
  sized : ∀ i, (st.inodes i).WellSized
  doubled : ∀ i, (st.inodes i).used → Doubled (st.inodes i).capacity
  offsets : ∀ f, (st.fds f).offset < 2 ^ 32
  files : ∀ f i, (st.fds f).used → (st.fds f).inode = some i → (st.inodes i).used

section Sound

theorem doubled_setInode (h : ∀ i, (st.inodes i).used → Doubled (st.inodes i).capacity)
    (i : Fin kMaxInodes) {inode : Inode} (hinode : inode.used → Doubled inode.capacity)
    (j : Fin kMaxInodes) (hj : ((st.setInode i inode).inodes j).used) :
    Doubled ((st.setInode i inode).inodes j).capacity := by
  grind [setInode_self, setInode_of_ne]

theorem doubled_changes {es : List Effect}
    (h : ∀ i, (st.inodes i).used → Doubled (st.inodes i).capacity)
    (hchanges : Changes (fun _ _ _ => False) st st' es) :
    ∀ i, (st'.inodes i).used → Doubled (st'.inodes i).capacity := by
  induction hchanges with
  | refl => exact h
  | step _ hchange ih =>
    cases hchange with
    | descriptor f desc _ _ => exact ih
    | makeFile i name _ | makeDirectory i name _ => exact doubled_setInode ih i fun _ => .inl rfl
    | cut | remove => grind [doubled_setInode]
    | store i inode offset bytes hfits _ => exact hfits.elim

theorem doubled_write (hgood : st.Good)
    (h : ∀ i, (st.inodes i).used → Doubled (st.inodes i).capacity)
    (hwrite : st.write alloc fd buf count = .returned (r, st')) (j : Fin kMaxInodes)
    (hj : (st'.inodes j).used) : Doubled (st'.inodes j).capacity := by
  by_cases hopen : ∃ f i source, buf = some source ∧ st.Writable fd f i
  · obtain ⟨f, i, source, rfl, hf⟩ := hopen
    obtain ⟨ok, grown, hensure, ⟨_, _, rfl⟩ | ⟨_, _, hcapacity, _, hwritten⟩⟩ :=
      write_returned hf (hgood.sized i) (hgood.offsets f) hwrite
    · exact h j hj
    · by_cases hji : j = i
      · rw [hji, hwritten.file.used_eq] at hj
        grind [ensureCapacity_doubled]
      · rw [hwritten.files j hji] at hj ⊢
        exact h j hj
  grind [write_refused]

theorem doubled_plant {seed : Seed} {ok : Bool}
    (h : ∀ i, (st.inodes i).used → Doubled (st.inodes i).capacity)
    (hplant : st.plant alloc seed = .returned (ok, st')) :
    ∀ i, (st'.inodes i).used → Doubled (st'.inodes i).capacity := by
  have hmake : ∀ {path isDirectory i made}, st.createInode path isDirectory = some (i, made) →
      ∀ j, (made.inodes j).used → Doubled (made.inodes j).capacity := by
    intro path isDirectory i made hmade
    obtain ⟨k, _, hk⟩ := Option.map_eq_some_iff.mp hmade
    obtain ⟨rfl, rfl⟩ := Prod.mk.inj hk
    exact doubled_setInode h k fun _ => .inl rfl
  cases seed with
  | dir path =>
    grind [plant]
  | file path content =>
    simp only [plant] at hplant
    split at hplant
    · cases hplant
      exact h
    · rename_i i made hmade
      rw [Ended.bind_eq_returned] at hplant
      obtain ⟨⟨enough, inode⟩, hensure, hplant⟩ := hplant
      split_ifs at hplant
      · cases hplant
        exact hmake hmade
      · simp only [Ended.bind_eq_returned, Ended.returned.injEq, Prod.mk.injEq] at hplant
        obtain ⟨data, _, _, rfl⟩ := hplant
        have hused := (ensureCapacity_returned hensure).1
        grind [doubled_setInode, ensureCapacity_doubled]

theorem doubled_plantAll {alloc : Nat → Allocator} {k : Nat} {seeds : List (Option Seed)} {ok : Bool}
    (h : ∀ i, (st.inodes i).used → Doubled (st.inodes i).capacity)
    (hplant : plantAll alloc k seeds st = .returned (ok, st')) :
    ∀ i, (st'.inodes i).used → Doubled (st'.inodes i).capacity := by
  induction seeds generalizing st k with
  | nil =>
    cases hplant
    exact h
  | cons seed rest ih =>
    cases seed with
    | none =>
      cases hplant
      exact h
    | some seed =>
      simp only [plantAll, Ended.bind_eq_returned] at hplant
      grind [doubled_plant]

theorem reachable_doubled (h : Reachable st) :
    ∀ i, (st.inodes i).used → Doubled (st.inodes i).capacity := by
  induction h with
  | init h =>
    refine doubled_plantAll ?_ h
    intro i hi
    cases hi
  | @call st st' c r hst hcall ih =>
    have hgood := reachable_good hst
    cases c with
    | write alloc fd buf count => exact doubled_write hgood ih hcall
    | _ =>
      refine doubled_changes ih (call_changes hgood.tree hgood.sized hgood.offsets ?_ hcall)
      trivial

theorem sound_of_reachable (h : Reachable st) : st.Sound := by
  have hgood := reachable_good h
  refine ⟨hgood.sized, reachable_doubled h, hgood.offsets, ?_⟩
  intro f i hf hi
  obtain ⟨j, hj, hused, _⟩ := hgood.tree.descriptors f hf
  rw [hi, Option.some.injEq] at hj
  rw [hj]
  exact hused

end Sound

section Exactness

theorem exactWrite_of_le (h : st.Sound) (hw : st.Writable fd f i)
    (hle : (st.fds f).offset + count.toNat ≤ 2 ^ 31) :
    st.ExactWrite alloc fd (some source) count := by
  obtain ⟨r, st', hwrite⟩ := @write_returns st alloc fd (some source) count h.sized (by
    intro g k hg _
    rw [hw.fd_eq, Option.some.injEq] at hg
    rw [← hg]
    exact hle)
  refine ⟨r, st', hwrite, ?_⟩
  obtain ⟨ok, grown, _, ⟨_, hr, hst⟩ | ⟨_, hr, _, _, hwritten⟩⟩ :=
    write_returned hw (h.sized i) (h.offsets f) hwrite
  · exact .inl ⟨hr, hst⟩
  grind

-- With a heap that always has a buffer, no write beyond that returns: the capacity cannot be
-- doubled so far, and a sum that wraps leaves the buffer.
theorem le_of_write_returned (h : st.Sound) (hw : st.Writable fd f i) (halloc : alloc.Succeeds)
    (hwrite : st.write alloc fd (some source) count = .returned (r, st')) :
    (st.fds f).offset + count.toNat ≤ 2 ^ 31 := by
  obtain ⟨ok, grown, hensure, hcases⟩ := write_returned hw (h.sized i) (h.offsets f) hwrite
  obtain rfl := ensureCapacity_ok halloc hensure
  obtain ⟨hfalse, _⟩ | ⟨_, _, _, hstop, _⟩ := hcases
  · cases hfalse
  · have hused := h.files f i (getFd_some hw.fd_eq) hw.inode_eq
    have hcapacity := (ensureCapacity_doubled (h.doubled i hused) hensure).le
    have hroom := (ensureCapacity_returned hensure).2.2.2.2.2 rfl
    omega

-- Whatever the heap answers, a write returns and is exact when it reaches no further than 2 GiB,
-- or never gets to the file. Any other write fails to.
theorem write_exact_iff {st : RamFs} (h : st.Sound) (fd : Int) (buf : Option (Nat → UInt8))
    (count : UInt32) :
    (∀ alloc, st.ExactWrite alloc fd buf count) ↔
      ∀ f i source, buf = some source → st.Writable fd f i →
        (st.fds f).offset + count.toNat ≤ 2 ^ 31 := by
  constructor
  · rintro hexact f i source rfl hw
    obtain ⟨r, st', hwrite, _⟩ := hexact zeroed
    exact le_of_write_returned h hw (fun n => ⟨_, rfl⟩) hwrite
  · intro hle alloc
    by_cases hopen : ∃ f i source, buf = some source ∧ st.Writable fd f i
    · obtain ⟨f, i, source, rfl, hw⟩ := hopen
      exact exactWrite_of_le h hw (hle f i source rfl hw)
    · refine ⟨-1, st, ?_, .inl ⟨rfl, rfl⟩⟩
      exact write_refused fun f i source hbuf hf => hopen ⟨f, i, source, hbuf, hf⟩

theorem writable_of_eq {o : Nat} {flags : UInt32} (hfd : st.getFd fd = some f)
    (hdesc : st.fds f = ⟨true, some i, o, flags⟩) (hflags : flags &&& kOpenWrite ≠ 0) :
    st.Writable fd f i ∧ (st.fds f).offset = o := by
  refine ⟨⟨hfd, ?_, ?_⟩, ?_⟩
  · rw [hdesc]
  · rw [hdesc]
    exact hflags
  · rw [hdesc]

theorem new_file_reachable : ∃ st st', Reachable st ∧ Reachable st' ∧
    st.Writable 3 firstFd fileSlot ∧ (st.fds firstFd).offset = 0 ∧
    (st.inodes fileSlot).capacity = 0 ∧ st'.Writable 3 firstFd fileSlot ∧
    (st'.fds firstFd).offset = 3 ∧ (st'.inodes fileSlot).capacity = 64 := by
  have hrun : (RamFs.init (fun _ => zeroed) >>= fun p =>
      (p.2.openPath sharedPath 6).2.write zeroed 3 threeBytes 3 >>= fun q =>
        .returned ((p.2.openPath sharedPath 6).2.getFd 3 = some firstFd &&
          (p.2.openPath sharedPath 6).2.fds firstFd = ⟨true, some fileSlot, 0, 6⟩ &&
          ((p.2.openPath sharedPath 6).2.inodes fileSlot).capacity = 0 &&
          q.2.getFd 3 = some firstFd && q.2.fds firstFd = ⟨true, some fileSlot, 3, 6⟩ &&
          (q.2.inodes fileSlot).capacity = 64)) = .returned true := by
    decide +kernel
  simp only [Ended.bind_eq_returned, Ended.returned.injEq, Bool.and_eq_true, decide_eq_true_eq]
    at hrun
  obtain ⟨⟨ok, booted⟩, hinit, ⟨n, written⟩, hwrite,
    ⟨⟨⟨⟨hfd, hdesc⟩, hcapacity⟩, hfd'⟩, hdesc'⟩, hcapacity'⟩ := hrun
  have hopened := Reachable.call (c := .openPath sharedPath 6) (.init hinit) rfl
  have hwritten := Reachable.call (c := .write zeroed 3 threeBytes 3) hopened hwrite
  obtain ⟨hw, hoffset⟩ := writable_of_eq hfd hdesc (by decide)
  obtain ⟨hw', hoffset'⟩ := writable_of_eq hfd' hdesc' (by decide)
  exact ⟨_, _, hopened, hwritten, hw, hoffset, hcapacity, hw', hoffset', hcapacity'⟩

theorem write_exact_new_file : ∃ st, Reachable st ∧ st.Writable 3 firstFd fileSlot ∧
    ∀ alloc, st.ExactWrite alloc 3 threeBytes 3 := by
  obtain ⟨st, _, hst, _, hw, hoffset, _⟩ := new_file_reachable
  refine ⟨st, hst, hw, (write_exact_iff (sound_of_reachable hst) 3 threeBytes 3).mpr ?_⟩
  intro f i _ _ hf
  have hsame : firstFd = f := Option.some.inj (hw.fd_eq.symm.trans hf.fd_eq)
  rw [← hsame, hoffset]
  decide

theorem storeBytes_faults {data : Option (List UInt8)} {offset : Nat} {bytes : List UInt8}
    (hbytes : bytes ≠ []) (h : (data.getD []).length < offset + bytes.length) :
    storeBytes data offset bytes = .faults := by
  unfold storeBytes
  grind

-- A little more than 2 GiB into a new file: the doubling goes on for ever. And a number of bytes
-- with which the sum wraps: they are copied past the end of the buffer.
theorem write_not_exact :
    (∃ st, Reachable st ∧ st.write zeroed 3 threeBytes 0x80000001 = .diverges) ∧
    ∃ st, Reachable st ∧ st.write zeroed 3 threeBytes 0xFFFFFFFF = .faults := by
  obtain ⟨st, st', hst, hst', hw, hoffset, hcapacity, hw', hoffset', hcapacity'⟩ := new_file_reachable
  refine ⟨⟨st, hst, ?_⟩, st', hst', ?_⟩
  · rw [threeBytes, write_eq hw, hoffset, ensureCapacity, hcapacity]
    rfl
  · have hstop : uint32 (3 + (0xFFFFFFFF : UInt32).toNat) = 2 := by decide
    have hbuffer := ((sound_of_reachable hst').sized fileSlot).buffer
    have hlength : ((List.range (0xFFFFFFFF : UInt32).toNat).map fun k =>
        UInt8.ofNat (7 + k)).length = 0xFFFFFFFF := by
      rw [List.length_map, List.length_range]
      rfl
    rw [threeBytes, write_eq hw', hoffset', hstop, ensureCapacity, hcapacity', if_pos (by decide),
      Ended.returned_bind, if_neg (by simp), storeBytes_faults]
    · rfl
    · intro hempty
      rw [hempty] at hlength
      cases hlength
    · rw [hlength, hbuffer, hcapacity']
      decide

end Exactness

end RamFs

end Wirth.Kernel.Fs

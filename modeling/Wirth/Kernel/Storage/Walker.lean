import Wirth.Kernel.Storage.Snapshot
import Wirth.Kernel.Storage.Operations

namespace Wirth.Kernel.Storage

open Wirth.Lib Wirth.Kernel.Fs

section Walks

variable {σ : Type}

def visited (st : RamFs) : Nat → Str → List Str
  | 0, _ => []
  | depth + 1, path => (st.entries path).flatMap fun e =>
      if e.isDirectory then visited st depth (joinPath path e.name) else [joinPath path e.name]

def walkList (step : σ → Str → Ended (Bool × σ)) : List Str → σ → Ended (Bool × σ)
  | [], s => .returned (true, s)
  | p :: rest, s => do
      let (ok, s) ← step s p
      if ok then walkList step rest s else .returned (false, s)

theorem walkList_append (step : σ → Str → Ended (Bool × σ)) (ps qs : List Str) (s : σ) :
    walkList step (ps ++ qs) s = walkList step ps s >>= fun r =>
      if r.1 then walkList step qs r.2 else .returned (false, r.2) := by
  induction ps generalizing s with
  | nil => rfl
  | cons p ps ih =>
    simp only [List.cons_append, walkList, Ended.assoc]
    refine bind_congr fun r => ?_
    obtain ⟨ok, s'⟩ := r
    cases ok with
    | true => exact ih s'
    | false => rfl

theorem childPath_eq {path name : Str} (h : (joinPath path name).length < nameSize) :
    childPath path name = joinPath path name := by
  unfold nameSize at h
  exact List.take_of_length_le (by unfold joinPath at h; omega)

variable {st : RamFs} {onFile : RamFs → σ → Str → Ended (Bool × RamFs × σ)}
  {step : σ → Str → Ended (Bool × σ)}

theorem walkEntries_eq (h : st.Namespace)
    (hfile : ∀ j s, (st.inodes j).used → (st.inodes j).isDirectory = false →
      onFile st s (st.inodes j).name = step s (st.inodes j).name >>= fun r => .returned (r.1, st, r.2))
    {walk : RamFs → σ → Str → Ended (Bool × RamFs × σ)} {depth : Nat} {path : Str}
    (hwalk : ∀ j s, (st.inodes j).used → (st.inodes j).isDirectory →
      path.length < (st.inodes j).name.length → walk st s (st.inodes j).name =
        walkList step (visited st depth (st.inodes j).name) s >>= fun r => .returned (r.1, st, r.2))
    {entries : List DirEntry} (hentries : ∀ e ∈ entries, e ∈ st.entries path) (s : σ) :
    walkEntries walk onFile path entries st s =
      walkList step (entries.flatMap fun e =>
        if e.isDirectory then visited st depth (joinPath path e.name) else [joinPath path e.name]) s >>=
        fun r => .returned (r.1, st, r.2) := by
  induction entries generalizing s with
  | nil => rfl
  | cons e rest ih =>
    obtain ⟨j, hused, hkind, hname, hjoin⟩ := mem_entries h (hentries e (by simp))
    have hlength := joinPath_length path e.name hname
    have hchild : childPath path e.name = (st.inodes j).name := by
      rw [childPath_eq (by rw [hjoin]; exact (h.normal j hused).length), hjoin]
    have hone : (if e.isDirectory then walk else onFile) st s (st.inodes j).name =
        walkList step (if e.isDirectory then visited st depth (joinPath path e.name)
          else [joinPath path e.name]) s >>= fun r => .returned (r.1, st, r.2) := by
      rw [hjoin] at hlength ⊢
      by_cases hdir : e.isDirectory = true
      · simpa [hdir] using hwalk j s hused (by rw [← hkind]; exact hdir) hlength
      · rw [if_neg hdir, if_neg hdir, hfile j s hused (by rw [← hkind]; simpa using hdir), walkList,
          Ended.assoc]
        refine bind_congr fun r => ?_
        obtain ⟨ok, s'⟩ := r
        cases ok <;> rfl
    rw [walkEntries, hchild, hone, List.flatMap_cons, walkList_append, Ended.assoc, Ended.assoc]
    refine bind_congr fun r => ?_
    obtain ⟨ok, s'⟩ := r
    cases ok with
    | true => exact ih (fun x hx => hentries x (List.mem_cons_of_mem _ hx)) s'
    | false => rfl

theorem walkDirectory_eq (h : st.Namespace)
    (hfile : ∀ j s, (st.inodes j).used → (st.inodes j).isDirectory = false →
      onFile st s (st.inodes j).name = step s (st.inodes j).name >>= fun r => .returned (r.1, st, r.2))
    {depth : Nat} {i : Fin kMaxInodes} (hused : (st.inodes i).used) (hdir : (st.inodes i).isDirectory)
    (hdepth : nameSize ≤ (st.inodes i).name.length + depth) (s : σ) :
    walkDirectory onFile depth st s (st.inodes i).name =
      walkList step (visited st depth (st.inodes i).name) s >>= fun r => .returned (r.1, st, r.2) := by
  induction depth generalizing i s with
  | zero =>
    have := (h.normal i hused).length
    omega
  | succ depth ih =>
    rw [walkDirectory, readdir_directory h hused hdir]
    refine walkEntries_eq h hfile (fun j s' hj hjdir hlonger => ?_) (fun e he => he) s
    exact ih hj hjdir (by omega) s'

end Walks

section Feeding

variable {σ : Type} {chunk : σ → List UInt8 → Ended (Bool × σ)}

def feed (chunk : σ → List UInt8 → Ended (Bool × σ)) (bytes : List UInt8) (s : σ) : Ended (Bool × σ) :=
  if bytes = [] then .returned (true, s)
  else do
    let (ok, s) ← chunk s (bytes.take 512)
    if ok then feed chunk (bytes.drop 512) s else .returned (false, s)
termination_by bytes.length
decreasing_by
  have := List.length_pos_iff.mpr ‹bytes ≠ []›
  rw [List.length_drop]
  omega

theorem readLoop_close {β : Type} {st : RamFs} {i : Fin kMaxInodes} {f : Fin kMaxFds}
    (hsized : (st.inodes i).WellSized) (hempty : st.fds f = .empty) {rounds o : Nat}
    (ho : o ≤ (st.inodes i).bytes.length) (hrounds : (st.inodes i).bytes.length < o + rounds) (s : σ)
    (k : Bool → RamFs → σ → Ended β) :
    (readLoop chunk rounds (st.setFd f ⟨true, some i, o, kOpenRead⟩) (f.val + kFdOffset) s >>=
        fun r => k r.1 (r.2.1.close (f.val + kFdOffset)).2 r.2.2) =
      feed chunk ((st.inodes i).bytes.drop o) s >>= fun r => k r.1 st r.2 := by
  induction rounds generalizing o s with
  | zero => exact absurd hrounds (by omega)
  | succ rounds ih =>
    rw [readLoop, read_setFd hsized, feed]
    simp only [Ended.returned_bind]
    rw [if_neg (by omega)]
    by_cases hend : (st.inodes i).bytes.drop o = []
    · rw [if_pos hend, hend]
      simp only [List.take_nil, List.length_nil, Nat.cast_zero, if_true, Ended.returned_bind,
        Nat.add_zero]
      rw [close_setFd rfl hempty]
    · have hpos := List.length_pos_iff.mpr hend
      have hlength : (((st.inodes i).bytes.drop o).take 512).length =
          min 512 ((st.inodes i).bytes.length - o) := by
        rw [List.length_take, List.length_drop]
      rw [List.length_drop] at hpos
      rw [if_neg hend, if_neg (by omega)]
      simp only [Ended.assoc]
      refine bind_congr fun r => ?_
      obtain ⟨ok, s'⟩ := r
      cases ok with
      | true =>
        simp only [if_true]
        rw [ih (by omega) (by omega), hlength, List.drop_drop]
        grind [List.drop_of_length_le]
      | false => simp [close_setFd, hempty]

theorem feed_measure (bytes : List UInt8) (len : Nat) :
    feed (fun len bytes => .returned (true, uint32 (len + bytes.length))) bytes (uint32 len) =
      .returned (true, uint32 (len + bytes.length)) := by
  induction hn : bytes.length using Nat.strong_induction_on generalizing bytes len with
  | _ n ih =>
    subst hn
    rw [feed]
    by_cases hempty : bytes = []
    · rw [if_pos hempty, hempty]
      rfl
    · have hpos := List.length_pos_iff.mpr hempty
      rw [if_neg hempty]
      simp only [Ended.returned_bind, if_true]
      have hstep : uint32 (uint32 len + (bytes.take 512).length) =
          uint32 (len + (bytes.take 512).length) := by
        unfold uint32
        omega
      rw [hstep, ih (bytes.drop 512).length (by rw [List.length_drop]; omega) (bytes.drop 512) _ rfl,
        Nat.add_assoc, ← List.length_append, List.take_append_drop]

theorem feed_fill {size : Nat} {bytes pre rest : List UInt8} {len : Nat}
    (hsize : pre.length + rest.length = size) (hlimit : size < 2 ^ 32)
    (hroom : bytes.length ≤ rest.length) (hlen : len + bytes.length < 2 ^ 32) :
    feed (fillChunk size) bytes (⟨pre ++ rest, pre.length⟩, len) =
      .returned (true, ⟨(pre ++ bytes) ++ rest.drop bytes.length, pre.length + bytes.length⟩,
        len + bytes.length) := by
  induction hn : bytes.length using Nat.strong_induction_on generalizing bytes pre rest len with
  | _ n ih =>
    subst hn
    rw [feed]
    by_cases hempty : bytes = []
    · rw [if_pos hempty, hempty]
      simp
    · have hpos := List.length_pos_iff.mpr hempty
      have hboth : (bytes.take 512).length + (bytes.drop 512).length = bytes.length := by
        rw [← List.length_append, List.take_append_drop]
      have hshorter : (bytes.drop 512).length < bytes.length := by
        rw [List.length_drop]
        omega
      have hleft : (rest.drop (bytes.take 512).length).length =
          rest.length - (bytes.take 512).length := List.length_drop
      rw [if_neg hempty, fillChunk]
      rw [uint32_eq_self (n := pre.length + (bytes.take 512).length) (by omega),
        if_neg (by omega), storeAt_end (by omega), uint32_eq_self (by omega)]
      simp only [Ended.returned_bind, if_true]
      have hnext := @ih (bytes.drop 512).length hshorter (bytes.drop 512)
        (pre ++ bytes.take 512) (rest.drop (bytes.take 512).length) (len + (bytes.take 512).length)
        (by rw [List.length_append, hleft]; omega) (by omega) (by omega) rfl
      rw [List.length_append] at hnext
      rw [hnext, List.append_assoc pre, List.take_append_drop, List.drop_drop, hboth, Nat.add_assoc,
        Nat.add_assoc, hboth]

theorem feed_off {size : Nat} {bytes : List UInt8} {s s' : Filling × Nat} (hs : s.1.off < 2 ^ 32)
    (h : feed (fillChunk size) bytes s = .returned (true, s')) :
    s'.1.off = uint32 (s.1.off + bytes.length) := by
  induction hn : bytes.length using Nat.strong_induction_on generalizing bytes s with
  | _ n ih =>
    subst hn
    rw [feed] at h
    by_cases hempty : bytes = []
    · rw [if_pos hempty] at h
      cases h
      rw [hempty, List.length_nil, Nat.add_zero, uint32_eq_self hs]
    · have hpos := List.length_pos_iff.mpr hempty
      rw [if_neg hempty, fillChunk] at h
      by_cases hroom : size < uint32 (s.1.off + (bytes.take 512).length)
      · rw [if_pos hroom] at h
        cases h
      · rw [if_neg hroom] at h
        simp only [Ended.bind_eq_returned] at h
        grind [uint32]

end Feeding

section Snapshot

variable {st : RamFs}

def fileBytes (st : RamFs) (path : Str) : List UInt8 :=
  match st.node path with
  | some (.file bytes) => bytes
  | _ => []

-- What a snapshot takes in: all files in the order of the walk, or none if they cannot be opened.
def snapshotFiles (st : RamFs) : List File :=
  if st.allocFd = none then []
  else (visited st walkDepth rootPath).map fun path => ⟨path, fileBytes st path⟩

theorem fileBytes_name (h : st.Namespace) {i : Fin kMaxInodes} (hused : (st.inodes i).used)
    (hfile : (st.inodes i).isDirectory = false) :
    fileBytes st (st.inodes i).name = (st.inodes i).bytes := by
  rw [fileBytes, node_of_used h hused, Inode.node, if_neg (by simp [hfile])]

theorem bytes_length_lt (h : st.Good) (i : Fin kMaxInodes) :
    (st.inodes i).bytes.length < 2 ^ 32 := by
  have hsize := (h.sized i).size_le
  have hlimit := (h.sized i).capacity_lt
  rw [Inode.bytes, List.length_take]
  omega

def measureStep (st : RamFs) (total : Nat) (path : Str) : Ended (Bool × Nat) :=
  if st.allocFd = none then .returned (true, total)
  else .returned (true, uint32 (total + uint32 (8 + path.length + (fileBytes st path).length)))

theorem measureFile_eq (h : st.Good) {i : Fin kMaxInodes} (hused : (st.inodes i).used)
    (hfile : (st.inodes i).isDirectory = false) (total : Nat) :
    measureFile st total (st.inodes i).name =
      measureStep st total (st.inodes i).name >>= fun r => .returned (r.1, st, r.2) := by
  rw [measureFile, openPath_file h.tree hused hfile, measureStep]
  cases hfd : st.allocFd with
  | none => rfl
  | some f =>
    simp only
    rw [if_neg (by unfold kFdOffset; omega), if_neg (by simp)]
    have hloop := @readLoop_close Nat (fun len bytes => .returned (true, uint32 (len + bytes.length)))
      _ st i f (h.sized i) (allocFd_some h hfd) readRounds 0 (Nat.zero_le _)
      (by grind [bytes_length_lt, readRounds]) 0
      (fun ok fs len => if ok = false then .returned (false, fs, total)
        else .returned (true, fs, uint32 (total + uint32 (8 + (st.inodes i).name.length + len))))
    rw [List.drop_zero, show feed _ (st.inodes i).bytes 0 = _ from feed_measure (st.inodes i).bytes 0]
      at hloop
    refine hloop.trans ?_
    simp only [Ended.returned_bind, Bool.true_eq_false, if_false, Nat.zero_add]
    rw [fileBytes_name h.tree hused hfile, uint32_eq_self (bytes_length_lt h i)]

def fillStep (st : RamFs) (size : Nat) (s : Filling) (path : Str) : Ended (Bool × Filling) :=
  if st.allocFd = none then .returned (true, s)
  else if size < uint32 (s.off + 8 + path.length) then .returned (false, s)
  else do
    let payload ← storeAt s.payload s.off (le32 path.length)
    let payload ← storeAt payload (s.off + 4) (le32 0)
    let payload ← storeAt payload (uint32 (s.off + 8)) path
    let off := uint32 (uint32 (s.off + 8) + path.length)
    let (ok, filled, len) ← feed (fillChunk size) (fileBytes st path) (⟨payload, off⟩, 0)
    if ok = false then .returned (false, filled)
    else do
      let payload ← storeAt filled.payload (s.off + 4) (le32 len)
      .returned (true, { filled with payload := payload })

theorem fillFile_eq (h : st.Good) {i : Fin kMaxInodes} (hused : (st.inodes i).used)
    (hfile : (st.inodes i).isDirectory = false) (size : Nat) (s : Filling) :
    fillFile size st s (st.inodes i).name =
      fillStep st size s (st.inodes i).name >>= fun r => .returned (r.1, st, r.2) := by
  rw [fillFile, openPath_file h.tree hused hfile, fillStep]
  cases hfd : st.allocFd with
  | none => rfl
  | some f =>
    have hempty := allocFd_some h hfd
    simp only
    rw [if_neg (by unfold kFdOffset; omega), if_neg (Option.some_ne_none f)]
    by_cases hroom : size < uint32 (s.off + 8 + (st.inodes i).name.length)
    · simp [close_setFd, hroom, hempty]
    rw [if_neg hroom, if_neg hroom]
    rw [Ended.assoc]
    refine bind_congr fun payload => ?_
    rw [Ended.assoc]
    refine bind_congr fun payload => ?_
    rw [Ended.assoc]
    refine bind_congr fun payload => ?_
    have hloop := @readLoop_close (Filling × Nat) (fillChunk size) _ st i f (h.sized i) hempty readRounds 0
      (Nat.zero_le _) (by grind [bytes_length_lt, readRounds])
      (⟨payload, uint32 (uint32 (s.off + 8) + (st.inodes i).name.length)⟩, 0)
      (fun ok fs r => if ok = false then .returned (false, fs, r.1)
        else storeAt r.1.payload (s.off + 4) (le32 r.2) >>= fun payload =>
          .returned (true, fs, { r.1 with payload := payload }))
    rw [List.drop_zero] at hloop
    refine hloop.trans ?_
    rw [fileBytes_name h.tree hused hfile, Ended.assoc]
    refine bind_congr fun r => ?_
    obtain ⟨ok, filled, len⟩ := r
    cases ok with
    | false => rfl
    | true =>
      simp only [Bool.true_eq_false, if_false, Ended.assoc]
      rfl

def snapshotFile (st : RamFs) (path : Str) : File := ⟨path, fileBytes st path⟩

theorem walkList_measure (hfd : st.allocFd ≠ none) (paths : List Str) (total : Nat) :
    walkList (measureStep st) paths (uint32 total) =
      .returned (true, uint32 (total + (encodeFiles (paths.map (snapshotFile st))).length)) := by
  induction paths generalizing total with
  | nil => rfl
  | cons path paths ih =>
    have hstep : uint32 (uint32 total + uint32 (8 + path.length + (fileBytes st path).length)) =
        uint32 (total + (snapshotFile st path).encode.length) := by
      rw [File.encode_length, snapshotFile]
      unfold uint32
      simp only
      omega
    rw [walkList, measureStep, if_neg hfd]
    simp only [Ended.returned_bind, if_true]
    rw [hstep, ih, List.map_cons, encodeFiles_cons, List.length_append, Nat.add_assoc]

theorem fillStep_room (hfd : st.allocFd ≠ none) {size : Nat} {pre rest : List UInt8} {path : Str}
    (hsize : pre.length + rest.length = size) (hlimit : size < 2 ^ 32)
    (hroom : (snapshotFile st path).encode.length ≤ rest.length) :
    fillStep st size ⟨pre ++ rest, pre.length⟩ path =
      .returned (true, ⟨(pre ++ (snapshotFile st path).encode) ++
        rest.drop (snapshotFile st path).encode.length,
        (pre ++ (snapshotFile st path).encode).length⟩) := by
  rw [File.encode_length, snapshotFile] at hroom
  simp only at hroom
  have hhead := @storeAt_end pre rest (le32 path.length) (by rw [le32_length]; omega)
  have hzero := @storeAt_end (pre ++ le32 path.length) (rest.drop 4) (le32 0)
    (by rw [le32_length, List.length_drop]; omega)
  have hpath := @storeAt_end ((pre ++ le32 path.length) ++ le32 0) ((rest.drop 4).drop 4) path
    (by simp only [List.length_drop]; omega)
  have hfeed := @feed_fill size (fileBytes st path) (((pre ++ le32 path.length) ++ le32 0) ++ path)
    (((rest.drop 4).drop 4).drop path.length) 0
    (by simp only [List.length_append, le32_length, List.length_drop]; omega) hlimit
    (by simp only [List.length_drop]; omega) (by omega)
  have hcount := @storeAt_end (pre ++ le32 path.length)
    (le32 0 ++ (path ++ (fileBytes st path ++
      (((rest.drop 4).drop 4).drop path.length).drop (fileBytes st path).length)))
    (le32 (fileBytes st path).length) (by simp)
  simp only [List.length_append, le32_length, Nat.add_assoc] at hhead hzero hpath hfeed hcount
  rw [fillStep, if_neg hfd]
  rw [uint32_eq_self (n := pre.length + 8 + path.length) (by omega), if_neg (by omega), hhead]
  simp only [Ended.returned_bind]
  rw [hzero]
  simp only [Ended.returned_bind]
  rw [uint32_eq_self (n := pre.length + 8) (by omega), hpath]
  simp only [Ended.returned_bind]
  rw [uint32_eq_self (by omega),
    show pre.length + 8 + path.length = pre.length + (4 + (4 + path.length)) by omega, hfeed]
  simp only [Ended.returned_bind, Bool.true_eq_false, if_false, Nat.zero_add]
  simp only [List.append_assoc] at hcount ⊢
  rw [hcount]
  simp only [Ended.returned_bind, snapshotFile, File.encode, List.append_assoc, List.length_append,
    le32_length, List.drop_drop]
  grind [le32_length]

theorem walkList_fill (hfd : st.allocFd ≠ none) {size : Nat} {paths : List Str} {pre rest : List UInt8}
    (hsize : pre.length + rest.length = size) (hlimit : size < 2 ^ 32)
    (hroom : (encodeFiles (paths.map (snapshotFile st))).length ≤ rest.length) :
    walkList (fillStep st size) paths ⟨pre ++ rest, pre.length⟩ =
      .returned (true, ⟨(pre ++ encodeFiles (paths.map (snapshotFile st))) ++
        rest.drop (encodeFiles (paths.map (snapshotFile st))).length,
        (pre ++ encodeFiles (paths.map (snapshotFile st))).length⟩) := by
  induction paths generalizing pre rest with
  | nil => simp [walkList, encodeFiles]
  | cons path paths ih =>
    rw [List.map_cons, encodeFiles_cons, List.length_append] at hroom
    rw [walkList, fillStep_room hfd hsize hlimit (by omega)]
    simp only [Ended.returned_bind, if_true]
    rw [ih (by simp only [List.length_append, List.length_drop]; omega)
      (by rw [List.length_drop]; omega), List.map_cons, encodeFiles_cons, List.drop_drop,
      ← List.append_assoc]
    simp only [List.length_append]

theorem fillStep_off (hfd : st.allocFd ≠ none) {size : Nat} {s s' : Filling} {path : Str}
    (h : fillStep st size s path = .returned (true, s')) :
    s'.off = uint32 (s.off + (snapshotFile st path).encode.length) := by
  rw [fillStep, if_neg hfd] at h
  by_cases hroom : size < uint32 (s.off + 8 + path.length)
  · rw [if_pos hroom] at h
    cases h
  rw [if_neg hroom] at h
  simp only [Ended.bind_eq_returned] at h
  obtain ⟨_, _, _, _, payload, _, ⟨ok, filled, len⟩, hfeed, h⟩ := h
  cases ok with
  | false => cases h
  | true =>
    simp only [Bool.true_eq_false, if_false, Ended.bind_eq_returned] at h
    have := feed_off (uint32_lt _) hfeed
    grind [File.encode_length, snapshotFile, uint32]

theorem walkList_off (hfd : st.allocFd ≠ none) {size : Nat} {paths : List Str} {s s' : Filling}
    (hs : s.off < 2 ^ 32) (h : walkList (fillStep st size) paths s = .returned (true, s')) :
    s'.off = uint32 (s.off + (encodeFiles (paths.map (snapshotFile st))).length) := by
  induction paths generalizing s with
  | nil =>
    cases h
    exact (uint32_eq_self hs).symm
  | cons path paths ih =>
    rw [walkList, Ended.bind_eq_returned] at h
    obtain ⟨⟨ok, mid⟩, hstep, h⟩ := h
    cases ok with
    | false => cases h
    | true =>
      have hmid := fillStep_off hfd hstep
      grind [encodeFiles_cons, uint32]

theorem walkList_skips {σ : Type} {step : σ → Str → Ended (Bool × σ)}
    (h : ∀ s path, step s path = .returned (true, s)) (paths : List Str) (s : σ) :
    walkList step paths s = .returned (true, s) := by
  induction paths with
  | nil => rfl
  | cons path paths ih =>
    rw [walkList, h]
    exact ih

theorem snapshotFiles_eq (hfd : st.allocFd ≠ none) :
    snapshotFiles st = (visited st walkDepth rootPath).map (snapshotFile st) := if_neg hfd

theorem walkerCompute_eq (h : st.Good) :
    walkerCompute st = .returned (true, st, uint32 (encodeFiles (snapshotFiles st)).length) := by
  obtain ⟨i, hused, hname, hdir⟩ := h.tree.root
  have hwalk := @walkDirectory_eq Nat st measureFile (measureStep st) h.tree
    (fun j s hj hfile => measureFile_eq h hj hfile s) walkDepth i hused hdir
    (by unfold walkDepth nameSize; omega) 0
  rw [hname] at hwalk
  refine hwalk.trans ?_
  by_cases hfd : st.allocFd = none
  · rw [walkList_skips (fun s path => by rw [measureStep, if_pos hfd]), snapshotFiles, if_pos hfd]
    rfl
  · rw [show (0 : Nat) = uint32 0 from rfl, walkList_measure hfd, snapshotFiles_eq hfd, Nat.zero_add]
    rfl

theorem walkerFill_walk (h : st.Good) (size : Nat) (payload : List UInt8) :
    walkerFill st size payload = walkList (fillStep st size) (visited st walkDepth rootPath)
      ⟨payload, 0⟩ >>= fun r => .returned (r.1, st, r.2) := by
  obtain ⟨i, hused, hname, hdir⟩ := h.tree.root
  have hwalk := @walkDirectory_eq Filling st (fillFile size) (fillStep st size) h.tree
    (fun j s hj hfile => fillFile_eq h hj hfile size s) walkDepth i hused hdir
    (by unfold walkDepth nameSize; omega) ⟨payload, 0⟩
  rw [hname] at hwalk
  exact hwalk

theorem walkerFill_eq (h : st.Good) (hlimit : (encodeFiles (snapshotFiles st)).length < 2 ^ 32)
    {payload : List UInt8} (hpayload : payload.length = (encodeFiles (snapshotFiles st)).length) :
    walkerFill st payload.length payload =
      .returned (true, st, ⟨encodeFiles (snapshotFiles st), payload.length⟩) := by
  rw [walkerFill_walk h]
  by_cases hfd : st.allocFd = none
  · rw [snapshotFiles, if_pos hfd] at hpayload ⊢
    have hempty : payload = [] := List.length_eq_zero_iff.mp hpayload
    rw [walkList_skips (fun s path => by rw [fillStep, if_pos hfd]), hempty]
    rfl
  · rw [snapshotFiles_eq hfd] at hpayload hlimit ⊢
    have hfill := @walkList_fill st hfd payload.length (visited st walkDepth rootPath) [] payload
      (by simp) (by omega) (by omega)
    rw [List.nil_append, List.nil_append, List.length_nil] at hfill
    rw [hfill, ← hpayload, List.drop_length, List.append_nil]
    rfl

theorem walkerFill_off (h : st.Good) {size : Nat} {payload : List UInt8} {fs : RamFs} {s : Filling}
    (hfill : walkerFill st size payload = .returned (true, fs, s)) :
    s.off = uint32 (encodeFiles (snapshotFiles st)).length := by
  rw [walkerFill_walk h, Ended.bind_eq_returned] at hfill
  obtain ⟨⟨ok, filled⟩, hwalk, he⟩ := hfill
  cases he
  by_cases hfd : st.allocFd = none
  · rw [walkList_skips (fun s path => by rw [fillStep, if_pos hfd])] at hwalk
    cases hwalk
    rw [snapshotFiles, if_pos hfd]
    rfl
  · rw [walkList_off hfd (Nat.two_pow_pos 32) hwalk, Nat.zero_add, snapshotFiles_eq hfd]

theorem visited_used (h : st.Namespace) {depth : Nat} {directory path : Str}
    (hpath : path ∈ visited st depth directory) :
    ∃ i, (st.inodes i).used ∧ (st.inodes i).isDirectory = false ∧ (st.inodes i).name = path := by
  induction depth generalizing directory with
  | zero => cases hpath
  | succ depth ih =>
    obtain ⟨e, he, hmem⟩ := List.mem_flatMap.mp hpath
    by_cases hdir : e.isDirectory = true
    · rw [if_pos hdir] at hmem
      exact ih hmem
    · grind [mem_entries]

theorem named_of_normal {path : Str} (h : NormalPath path) (bytes : List UInt8) :
    File.Named ⟨path, bytes⟩ := by
  refine ⟨?_, ?_, h.text⟩
  · cases path with
    | nil => exact absurd h.absolute (by simp)
    | cons c rest => exact Nat.succ_pos _
  · exact (Nat.lt_trans h.length (by unfold nameSize; omega)).le

theorem snapshotFiles_named (h : st.Namespace) : ∀ f ∈ snapshotFiles st, f.Named := by
  intro f hf
  by_cases hfd : st.allocFd = none
  · rw [snapshotFiles, if_pos hfd] at hf
    cases hf
  · rw [snapshotFiles_eq hfd] at hf
    obtain ⟨path, hpath, rfl⟩ := List.mem_map.mp hf
    obtain ⟨i, hused, _, rfl⟩ := visited_used h hpath
    exact named_of_normal (h.normal i hused) _

theorem parsePayload_padded {files : List File} (hfiles : ∀ f ∈ files, f.Named)
    (hlimit : (encodeFiles files).length < 2 ^ 32 - 512) :
    parsePayload (padded (encodeFiles files)) = .returned files :=
  parsePayload_encoded hfiles (by omega)

-- Both writers of payloads are undone by the reader, and the measured size is the one that is
-- filled.
theorem payload_codec :
    (∀ files : List File, (∀ f ∈ files, f.Named) → (encodeFiles files).length < 2 ^ 32 - 512 →
      ∀ payload : List UInt8, payload.length = payloadTotal files →
        ∃ filled, fillPayload payload 0 files = .returned (filled, payloadTotal files) ∧
          parsePayload (padded filled) = .returned files) ∧
    ∀ st, Reachable st → ∃ total, walkerCompute st = .returned (true, st, total) ∧
      (∀ payload : List UInt8, ∀ fs s, payload.length = total →
        walkerFill st total payload = .returned (true, fs, s) → s.off = total) ∧
      ((encodeFiles (snapshotFiles st)).length < 2 ^ 32 - 512 →
        ∀ payload : List UInt8, payload.length = total →
          ∃ filled, walkerFill st total payload = .returned (true, st, ⟨filled, total⟩) ∧
            parsePayload (padded filled) = .returned (snapshotFiles st)) := by
  constructor
  · intro files hfiles hlimit payload hpayload
    have htotal : payloadTotal files = (encodeFiles files).length := by
      rw [payloadTotal_eq, uint32_eq_self (by omega)]
    have hfill := @fillPayload_eq files [] payload (by simp only [List.length_nil]; omega) (by omega)
    rw [List.nil_append, List.nil_append, List.length_nil, Nat.zero_add, ← htotal] at hfill
    exact ⟨encodeFiles files, hfill, parsePayload_padded hfiles hlimit⟩
  · intro st hst
    have hgood := reachable_good hst
    refine ⟨_, walkerCompute_eq hgood, fun payload fs s _ hfill => walkerFill_off hgood hfill, ?_⟩
    intro hlimit payload hpayload
    rw [uint32_eq_self (by omega)] at hpayload ⊢
    have hfill := walkerFill_eq hgood (by omega) hpayload
    rw [hpayload] at hfill
    exact ⟨_, hfill, parsePayload_padded (snapshotFiles_named hgood.tree) hlimit⟩

theorem payload_codec_two : ∃ filled,
    fillPayload (List.replicate 20 7) 0 [⟨lit "/a", [1]⟩, ⟨lit "b", []⟩] = .returned (filled, 20) ∧
      parsePayload (padded filled) = .returned [⟨lit "/a", [1]⟩, ⟨lit "b", []⟩] :=
  payload_codec.1 [⟨lit "/a", [1]⟩, ⟨lit "b", []⟩]
    (by
      simp only [List.forall_mem_cons, List.not_mem_nil, false_implies, implies_true, and_true]
      exact ⟨⟨by decide, by decide, by decide⟩, ⟨by decide, by decide, by decide⟩⟩)
    (by decide) _ (by decide)

end Snapshot

end Wirth.Kernel.Storage

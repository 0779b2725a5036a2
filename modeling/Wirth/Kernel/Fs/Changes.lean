import Wirth.Kernel.Fs.History

namespace Wirth.Kernel.Fs

open Wirth.Lib

theorem storeBytes_returned {data data' : Option (List UInt8)} {offset : Nat} {bytes : List UInt8}
    (h : storeBytes data offset bytes = .returned data') :
    (data'.getD []).length = (data.getD []).length ∧
      (bytes ≠ [] → offset + bytes.length ≤ (data.getD []).length) ∧
      ∀ p, (data'.getD []).getD p 0 = if offset ≤ p ∧ p < offset + bytes.length then
        bytes.getD (p - offset) 0 else (data.getD []).getD p 0 := by
  unfold storeBytes at h
  by_cases hempty : bytes = []
  · grind
  grind [splice_length, splice_getD]

theorem loadBytes_returned {data : Option (List UInt8)} {offset count : Nat} {bytes : List UInt8}
    (h : loadBytes data offset count = .returned bytes) :
    bytes.length = count ∧ (0 < count → offset + count ≤ (data.getD []).length) ∧
      ∀ j, j < count → bytes[j]? = some ((data.getD []).getD (offset + j) 0) := by
  unfold loadBytes at h
  grind

theorem growCapacity_lt {rounds capacity required result : Nat} (hc : capacity < 2 ^ 32)
    (h : growCapacity rounds capacity required = some result) : result < 2 ^ 32 := by
  induction rounds generalizing capacity with
  | zero => cases h
  | succ rounds ih =>
    grind [growCapacity, uint32_lt]

theorem ensureCapacity_contents {alloc : Allocator} {inode inode' : Inode} {required : Nat} {ok : Bool}
    (hsized : inode.WellSized) (h : ensureCapacity alloc inode required = .returned (ok, inode')) :
    inode'.WellSized ∧ (∀ p, p < inode.size → inode'.byteAt p = inode.byteAt p) ∧
      (ok = false → inode' = inode) := by
  unfold ensureCapacity at h
  by_cases henough : required ≤ inode.capacity
  · grind
  rw [if_neg henough] at h
  split at h
  · cases h
  rename_i newCapacity hgrow
  have hlt : newCapacity < 2 ^ 32 := by
    refine growCapacity_lt ?_ hgrow
    split_ifs
    · decide
    · exact hsized.capacity_lt
  have hle := growCapacity_le hgrow
  split at h
  · grind
  rename_i newData halloc
  simp only [Ended.bind_eq_returned, Ended.returned.injEq, Prod.mk.injEq] at h
  obtain ⟨kept, hkept, data, hdata, rfl, rfl⟩ := h
  obtain ⟨hlength, hfits, hbytes⟩ := storeBytes_returned hdata
  rw [Option.getD_some, alloc.length_eq halloc] at hlength
  refine ⟨⟨hlength, ?_, hlt⟩, fun p hp => ?_, fun hfail => by cases hfail⟩
  · have := hsized.size_le
    dsimp only
    omega
  -- A file that is not empty has a buffer, and all of it is copied.
  unfold Inode.contents at hkept
  cases hold : inode.data with
  | none =>
    have hcapacity := hsized.buffer
    have hsize := hsized.size_le
    grind
  | some buffer =>
    rw [hold, if_pos ⟨rfl, by omega⟩] at hkept
    obtain ⟨hcount, _, hsame⟩ := loadBytes_returned hkept
    rw [Inode.byteAt, hbytes, if_pos (by omega), Nat.sub_zero, List.getD_eq_getElem?_getD,
      hsame p hp, Nat.zero_add, Option.getD_some, Inode.byteAt, hold]

theorem stores_of_storeBytes {alloc : Allocator} {inode grown : Inode} {offset : Nat}
    {bytes : List UInt8} {data : Option (List UInt8)} (hsized : inode.WellSized)
    (hoffset : offset < 2 ^ 32)
    (hensure : ensureCapacity alloc inode (uint32 (offset + bytes.length)) = .returned (true, grown))
    (hstore : storeBytes grown.data offset bytes = .returned data) :
    uint32 (offset + bytes.length) = offset + bytes.length ∧
      inode.Stores { grown with data := data, size := max inode.size (offset + bytes.length) }
        offset bytes := by
  obtain ⟨hgrown, hsame, _⟩ := ensureCapacity_contents hsized hensure
  obtain ⟨hused, hkind, _, hsize, hcapacity, henough⟩ := ensureCapacity_returned hensure
  obtain ⟨hlength, hfits, hbytes⟩ := storeBytes_returned hstore
  have hlt := hgrown.capacity_lt
  have hbuffer := hgrown.buffer
  have hstop : uint32 (offset + bytes.length) = offset + bytes.length := by
    refine uint32_eq_self ?_
    by_cases hempty : bytes = []
    · rw [hempty]
      exact hoffset
    · have := hfits hempty
      omega
  have hroom := henough rfl
  have hle := hsized.size_le
  refine ⟨hstop, hused, hkind, rfl, ⟨hlength.trans hbuffer, ?_, hlt⟩, fun p hp hout => ?_,
    fun p hlow hhigh => ?_⟩
  · dsimp only
    omega
  · rw [Inode.byteAt, hbytes, if_neg hout]
    exact hsame p hp
  · rw [Inode.byteAt, hbytes, if_pos ⟨hlow, hhigh⟩]

section Calls

variable {fits : Nat → Nat → Nat → Prop} {st st' : RamFs} {path : Option Str} {r : Int}

theorem openInode_changes (i : Fin kMaxInodes) (flags : UInt32) :
    Changes fits st (st.openInode i flags).2
      (if (st.inodes i).isDirectory then [] else truncation i flags) := by
  have hopen : ∀ mid : RamFs, Changes fits mid (mid.openFd i flags).2 [] := by
    intro mid
    unfold RamFs.openFd
    split
    · exact .refl mid
    · exact (Change.descriptor _ _ (Nat.two_pow_pos 32) (Or.inl rfl)).changes
  unfold RamFs.openInode
  split_ifs with hdir
  · exact .refl st
  unfold RamFs.truncated truncation
  split_ifs with hcut
  · exact (Change.cut i).changes.trans (hopen _)
  · exact hopen st

theorem openInode_names (i : Fin kMaxInodes) (flags : UInt32) (j : Fin kMaxInodes) :
    ((st.openInode i flags).2.inodes j).used = (st.inodes j).used ∧
      ((st.openInode i flags).2.inodes j).name = (st.inodes j).name := by
  have hopen : ∀ mid : RamFs, (mid.openFd i flags).2.inodes = mid.inodes := by
    intro mid
    unfold RamFs.openFd
    split <;> rfl
  unfold RamFs.openInode
  split_ifs
  · exact ⟨rfl, rfl⟩
  rw [hopen, RamFs.truncated]
  grind [setInode_self, setInode_of_ne]

theorem findInode_openInode {normalized : Str} {i : Fin kMaxInodes} {made : RamFs}
    (hlen : normalized.length < nameSize) (hnew : st.findInode normalized = none)
    (hmade : st.createInode normalized false = some (i, made)) (flags : UInt32) :
    (made.openInode i flags).2.findInode normalized = some i := by
  obtain ⟨_, rfl⟩ := createInode_some hlen hmade
  refine firstSlot_of_unique ?_ fun j hj => ?_
  · simp [openInode_names]
  · rw [(openInode_names i flags j).1, (openInode_names i flags j).2] at hj
    by_contra hji
    rw [setInode_of_ne hji] at hj
    simp only [Bool.and_eq_true, decide_eq_true_eq] at hj
    exact findInode_none hnew j hj.1 hj.2

theorem openPath_changes (hst : st.Namespace) (flags : UInt32) :
    Changes fits st (st.openPath path flags).2 (st.openEffects path flags) := by
  unfold RamFs.openEffects
  rw [RamFs.openPath]
  cases hpath : normalizePath path nameSize with
  | none => exact .refl st
  | some normalized =>
    simp only
    have hnormal := normalizePath_normal hpath
    by_cases hroot : normalized = rootPath
    · rw [if_pos hroot]
      obtain ⟨k, hk, hname, hdir⟩ := hst.root
      have hfound : st.findInode normalized = some k := by
        refine firstSlot_of_unique (by simp [hk, hname, hroot]) fun j hj => ?_
        simp only [Bool.and_eq_true, decide_eq_true_eq] at hj
        exact hst.unique j k hj.1 hk (by rw [hj.2, hname, hroot])
      simpa [hfound, hdir] using .refl st
    rw [if_neg hroot]
    cases hfound : st.findInode normalized with
    | some i => exact openInode_changes i flags
    | none =>
      by_cases hcreate : flags &&& kOpenCreate = 0
      · rw [if_pos hcreate, hfound]
        exact .refl st
      rw [if_neg hcreate]
      by_cases hparent : st.parentDirectoryExists normalized = false
      · rw [if_pos hparent, hfound]
        exact .refl st
      rw [if_neg hparent]
      cases hmade : st.createInode normalized false with
      | none =>
        simp only [hfound]
        exact .refl st
      | some made =>
        obtain ⟨i, made⟩ := made
        simp only [findInode_openInode hnormal.length hfound hmade flags]
        obtain ⟨hfree, rfl⟩ := createInode_some hnormal.length hmade
        have hopened := @openInode_changes fits (st.setInode i ⟨true, false, normalized, none, 0, 0⟩) i flags
        rw [setInode_self, if_neg (by simp)] at hopened
        exact (Change.makeFile i normalized hfree).changes.trans hopened

theorem md_changes : Changes fits st (st.md path).2 [] := by
  unfold RamFs.md
  split
  · exact .refl st
  rename_i normalized hnormal
  by_cases hroot : normalized = rootPath
  · rw [if_pos hroot]
    exact .refl st
  rw [if_neg hroot]
  split
  · exact .refl st
  split_ifs with hparent
  · exact .refl st
  split
  · exact .refl st
  rename_i i made hmade
  obtain ⟨hfree, rfl⟩ := createInode_some (normalizePath_normal hnormal).length hmade
  exact (Change.makeDirectory i normalized hfree).changes

theorem rd_changes : Changes fits st (st.rd path).2 [] := by
  unfold RamFs.rd
  split
  · exact .refl st
  rename_i normalized hnormal
  by_cases hroot : normalized = rootPath
  · rw [if_pos hroot]
    exact .refl st
  rw [if_neg hroot]
  split
  · exact .refl st
  rename_i i hi
  split_ifs
  iterate 4 exact .refl st
  exact (Change.remove i .empty rfl rfl (emptyInode_wellSized _ _ _)).changes

theorem unlink_changes : Changes fits st (st.unlink path).2 [] := by
  unfold RamFs.unlink
  split
  · exact .refl st
  rename_i normalized hnormal
  by_cases hroot : normalized = rootPath
  · rw [if_pos hroot]
    exact .refl st
  rw [if_neg hroot]
  split
  · exact .refl st
  rename_i i hi
  split_ifs
  · exact .refl st
  · exact .refl st
  · exact (Change.remove i _ rfl rfl (emptyInode_wellSized _ _ _)).changes

theorem close_changes (fd : Int) : Changes fits st (st.close fd).2 [] := by
  unfold RamFs.close
  split
  · exact .refl st
  · exact (Change.descriptor _ _ (Nat.two_pow_pos 32) (Or.inr rfl)).changes

theorem read_returned {fd : Int} {count : UInt32} {bytes : List UInt8} {f : Fin kMaxFds}
    {i : Fin kMaxInodes} (hf : st.getFd fd = some f) (hi : (st.fds f).inode = some i)
    (hflags : (st.fds f).flags &&& kOpenRead ≠ 0)
    (hread : st.read fd true count = .returned (r, bytes, st')) :
    ∃ n, n = min count.toNat ((st.inodes i).size - (st.fds f).offset) ∧ r = int32 n ∧
      bytes.length = n ∧ st' = st.setFd f { st.fds f with offset := (st.fds f).offset + n } ∧
      ∀ j, j < n → bytes[j]? = some ((st.inodes i).byteAt ((st.fds f).offset + j)) := by
  unfold RamFs.read at hread
  rw [if_neg (by simp), hf] at hread
  simp only [hi] at hread
  rw [if_neg hflags] at hread
  by_cases hend : (st.inodes i).size ≤ (st.fds f).offset
  · rw [if_pos hend] at hread
    cases hread
    have hzero : min count.toNat ((st.inodes i).size - (st.fds f).offset) = 0 := by omega
    refine ⟨0, hzero.symm, by decide, rfl, ?_, fun j hj => absurd hj (Nat.not_lt_zero j)⟩
    simp [RamFs.setFd]
  rw [if_neg hend] at hread
  simp only [Ended.bind_eq_returned, Ended.returned.injEq, Prod.mk.injEq] at hread
  obtain ⟨loaded, hload, rfl, rfl, rfl⟩ := hread
  obtain ⟨hlength, _, hsame⟩ := loadBytes_returned hload
  exact ⟨_, rfl, rfl, hlength, by simp only [hi], hsame⟩

theorem read_changes (hst : st.Namespace) (hsized : ∀ i, (st.inodes i).WellSized)
    (hoffsets : ∀ f, (st.fds f).offset < 2 ^ 32) {fd : Int} {buf : Bool} {count : UInt32}
    {bytes : List UInt8} (hread : st.read fd buf count = .returned (r, bytes, st')) :
    Changes fits st st' [] := by
  cases buf with
  | false =>
    cases hread
    exact .refl st
  | true =>
    cases hf : st.getFd fd with
    | none =>
      simp only [RamFs.read, hf, Bool.true_eq_false, if_false] at hread
      cases hread
      exact .refl st
    | some f =>
      obtain ⟨i, hi, _, _⟩ := hst.descriptors f (getFd_some hf)
      by_cases hflags : (st.fds f).flags &&& kOpenRead = 0
      · simp only [RamFs.read, hf, hi, hflags, Bool.true_eq_false, if_false, if_true] at hread
        cases hread
        exact .refl st
      · obtain ⟨n, hn, _, _, rfl, _⟩ := read_returned hf hi hflags hread
        refine (Change.descriptor f _ ?_ (Or.inl ?_)).changes
        case refine_2 => exact getFd_some hf
        have hsize := (hsized i).size_le
        have hcapacity := (hsized i).capacity_lt
        grind

theorem store_changes {alloc : Allocator} {grown : Inode} {f : Fin kMaxFds} {i : Fin kMaxInodes}
    {data : Option (List UInt8)} {desc : FileDescriptor} {source : Nat → UInt8} {offset count : Nat}
    (hsized : (st.inodes i).WellSized) (hoffset : offset < 2 ^ 32) (hdesc : desc.offset < 2 ^ 32)
    (hused : desc.used = true)
    (hensure : ensureCapacity alloc (st.inodes i) (uint32 (offset + count)) = .returned (true, grown))
    (hstore : storeBytes grown.data offset ((List.range count).map source) = .returned data)
    (hfits : fits (st.inodes i).size offset count) :
    Changes fits st ((st.setInode i { grown with
        data := data
        size := if grown.size < uint32 (offset + count) then uint32 (offset + count) else grown.size
      }).setFd f desc)
      [.wrote i offset ((List.range count).map source)] := by
  have hcount : ((List.range count).map source).length = count := by simp
  have hstored := @stores_of_storeBytes alloc (st.inodes i) grown offset _ data hsized hoffset
    (by rw [hcount]; exact hensure) hstore
  rw [hcount] at hstored
  obtain ⟨hstop, hstores⟩ := hstored
  have hsize : (if grown.size < uint32 (offset + count) then uint32 (offset + count)
      else grown.size) = max (st.inodes i).size (offset + count) := by
    rw [(ensureCapacity_returned hensure).2.2.2.1, hstop]
    split_ifs <;> omega
  rw [hsize]
  exact (Change.store i _ offset _ (by rw [hcount]; exact hfits) hstores).changes.trans
    (Change.descriptor f desc hdesc (Or.inl hused)).changes

theorem write_changes (hsized : ∀ i, (st.inodes i).WellSized)
    (hoffsets : ∀ f, (st.fds f).offset < 2 ^ 32) {alloc : Allocator} {fd : Int}
    {buf : Option (Nat → UInt8)} {count : UInt32}
    (hwrite : st.write alloc fd buf count = .returned (r, st'))
    (hfits : ∀ f i, st.getFd fd = some f → (st.fds f).inode = some i →
      fits (st.inodes i).size (st.fds f).offset count.toNat) :
    Changes fits st st' (st.writeEffects alloc fd buf count) := by
  unfold RamFs.write at hwrite
  unfold RamFs.writeEffects
  cases buf with
  | none =>
    cases hwrite
    exact .refl st
  | some source =>
    cases hf : st.getFd fd with
    | none =>
      simp only [hf] at hwrite
      cases hwrite
      exact .refl st
    | some f =>
      simp only [hf] at hwrite ⊢
      cases hi : (st.fds f).inode with
      | none =>
        simp only [hi] at hwrite
        cases hwrite
        exact .refl st
      | some i =>
        simp only [hi] at hwrite ⊢
        by_cases hflags : (st.fds f).flags &&& kOpenWrite = 0
        · rw [if_pos hflags] at hwrite ⊢
          cases hwrite
          exact .refl st
        rw [if_neg hflags] at hwrite ⊢
        rw [Ended.bind_eq_returned] at hwrite
        obtain ⟨⟨ok, grown⟩, hensure, hwrite⟩ := hwrite
        simp only [hensure] at hwrite ⊢
        cases ok with
        | false =>
          cases hwrite
          obtain rfl := (ensureCapacity_contents (hsized i) hensure).2.2 rfl
          simpa [RamFs.setInode] using Changes.refl st
        | true =>
          rw [if_neg (by simp)] at hwrite
          simp only [Ended.bind_eq_returned, Ended.returned.injEq, Prod.mk.injEq] at hwrite
          obtain ⟨data, hstore, _, rfl⟩ := hwrite
          exact store_changes (hsized i) (hoffsets f) (uint32_lt _) (getFd_some hf) hensure hstore
            (hfits f i hf hi)

end Calls

def RamFs.writeFits (fits : Nat → Nat → Nat → Prop) (st : RamFs) : Call → Prop
  | .write _ fd _ count => ∀ f i, st.getFd fd = some f → (st.fds f).inode = some i →
      fits (st.inodes i).size (st.fds f).offset count.toNat
  | _ => True

variable {fits : Nat → Nat → Nat → Prop} {st st' : RamFs}

theorem call_changes {c : Call} {r : Int}
    (hst : st.Namespace) (hsized : ∀ i, (st.inodes i).WellSized)
    (hoffsets : ∀ f, (st.fds f).offset < 2 ^ 32) (hfits : st.writeFits fits c)
    (h : st.call c = .returned (r, st')) : Changes fits st st' (st.effects c) := by
  have hsnd : ∀ {p : Int × RamFs} {es : List Effect}, Changes fits st p.2 es →
      Ended.returned p = .returned (r, st') → Changes fits st st' es := by
    rintro p es hp he
    cases he
    exact hp
  cases c with
  | openPath path flags => exact hsnd (openPath_changes hst flags) h
  | read fd buf count =>
    simp only [RamFs.call, Ended.bind_eq_returned, Ended.returned.injEq, Prod.mk.injEq] at h
    obtain ⟨⟨n, bytes, after⟩, hread, _, rfl⟩ := h
    exact read_changes hst hsized hoffsets hread
  | write alloc fd buf count => exact write_changes hsized hoffsets h hfits
  | close fd => exact hsnd (close_changes fd) h
  | md path => exact hsnd md_changes h
  | readdir path entries maxEntries => exact hsnd (.refl st) h
  | rd path => exact hsnd rd_changes h
  | unlink path => exact hsnd unlink_changes h

def Seed.Fits (fits : Nat → Nat → Nat → Prop) : Seed → Prop
  | .dir path => path.length < nameSize
  | .file path content => path.length < nameSize ∧ content.length < 2 ^ 32 ∧ fits 0 0 content.length

theorem plant_changes {alloc : Allocator}
    {seed : Seed} {ok : Bool} (hfits : seed.Fits fits)
    (h : st.plant alloc seed = .returned (ok, st')) :
    Changes fits st st' (st.plantEffects alloc seed) := by
  cases seed with
  | dir path =>
    simp only [RamFs.plant] at h
    split at h
    · cases h
      exact .refl st
    rename_i i made hmade
    cases h
    obtain ⟨hfree, rfl⟩ := createInode_some hfits hmade
    exact (Change.makeDirectory i path hfree).changes
  | file path content =>
    obtain ⟨hlen, hcontent, hplace⟩ := hfits
    simp only [RamFs.plant] at h
    simp only [RamFs.plantEffects]
    cases hmade : st.createInode path false with
    | none =>
      simp only [hmade] at h
      cases h
      exact .refl _
    | some made =>
      obtain ⟨i, made⟩ := made
      simp only [hmade, Ended.bind_eq_returned] at h ⊢
      obtain ⟨hfree, rfl⟩ := createInode_some hlen hmade
      have hmakes : Changes fits st (st.setInode i ⟨true, false, path, none, 0, 0⟩) [.created i] :=
        (Change.makeFile i path hfree).changes
      obtain ⟨⟨enough, grown⟩, hensure, h⟩ := h
      simp only [hensure]
      cases enough with
      | false =>
        cases h
        exact hmakes
      | true =>
        rw [if_neg (by simp)] at h
        simp only [Ended.bind_eq_returned, Ended.returned.injEq, Prod.mk.injEq] at h
        obtain ⟨data, hstore, _, rfl⟩ := h
        rw [setInode_self] at hensure
        have hstored := @stores_of_storeBytes alloc _ grown 0 content data
          (emptyInode_wellSized true false path) (Nat.two_pow_pos 32)
          (by rw [Nat.zero_add, uint32_eq_self hcontent]; exact hensure) hstore
        simp only [Nat.zero_add, Nat.zero_max] at hstored
        refine hmakes.step (.store i _ 0 content ?_ ?_)
        · rw [setInode_self]
          exact hplace
        · rw [setInode_self]
          exact hstored.2

theorem plantAll_changes {alloc : Nat → Allocator} {k : Nat}
    {seeds : List (Option Seed)} {st st' : RamFs} {ok : Bool}
    (hfits : ∀ seed, some seed ∈ seeds → seed.Fits fits)
    (h : RamFs.plantAll alloc k seeds st = .returned (ok, st')) :
    Changes fits st st' (RamFs.plantAllEffects alloc k seeds st) := by
  induction seeds generalizing st k with
  | nil =>
    cases h
    exact .refl _
  | cons seed rest ih =>
    cases seed with
    | none =>
      cases h
      exact .refl _
    | some seed =>
      simp only [RamFs.plantAll, Ended.bind_eq_returned] at h
      obtain ⟨⟨planted, made⟩, hplant, h⟩ := h
      have hfirst := plant_changes (hfits seed (by simp)) hplant
      simp only [RamFs.plantAllEffects, hplant]
      cases planted with
      | false =>
        cases h
        exact hfirst
      | true =>
        exact hfirst.trans (ih (fun s hs => hfits s (List.mem_cons_of_mem _ hs)) h)

end Wirth.Kernel.Fs

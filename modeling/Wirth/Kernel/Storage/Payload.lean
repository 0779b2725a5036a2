import Wirth.Kernel.Storage.Storage
import Wirth.Kernel.Fs.RamFs

namespace Wirth.Kernel.Storage

open Wirth.Lib Wirth.Kernel.Fs

structure File where
  path : Str
  contents : List UInt8
  deriving DecidableEq

-- Accesses to a buffer of memory.

def load32 (buffer : List UInt8) (i : Nat) : Ended Nat :=
  if i + 4 ≤ buffer.length then .returned (at32 buffer i) else .faults

def storeAt (buffer : List UInt8) (i : Nat) (bytes : List UInt8) : Ended (List UInt8) :=
  storeBytes (some buffer) i bytes >>= fun data => .returned (data.getD [])

def cText (bytes : List UInt8) : Str := bytes.takeWhile (· ≠ 0)

-- The loop of `storage_restore_packages` over a payload. What is done with a file is left open;
-- its contents are a pointer into the buffer, and only those who follow it may be at fault.
-- There are no more than so many places to be at, so whoever is still in the loop after as many
-- rounds stays in it.
def payloadLoop {σ : Type} (visit : σ → Str → Ended (List UInt8) → Ended σ) (data : List UInt8)
    (size : Nat) : Nat → Nat → σ → Ended σ
  | 0, _, _ => .diverges
  | rounds + 1, po, s =>
      if size < uint32 (po + 8) then .returned s
      else do
        let pathLen ← load32 data po
        let dataLen ← load32 data (po + 4)
        let po := uint32 (po + 8)
        if pathLen = 0 ∨ size < uint32 (po + pathLen + dataLen) then .returned s
        else do
          let text ← loadBytes (some data) po (min pathLen 255)
          let po := uint32 (po + pathLen)
          let s ← visit s (cText text) (loadBytes (some data) po dataLen)
          payloadLoop visit data size rounds (uint32 (po + dataLen)) s

def payloadRounds : Nat := 2 ^ 32

def collect (files : List File) (path : Str) (contents : Ended (List UInt8)) : Ended (List File) := do
  .returned (files ++ [⟨path, ← contents⟩])

def parsePayload (data : List UInt8) : Ended (List File) :=
  payloadLoop collect data data.length payloadRounds 0 []

-- `install_package` counts first and then fills a buffer of that size.

def payloadTotal (files : List File) : Nat :=
  files.foldl (fun total f => uint32 (total + uint32 (8 + f.path.length + f.contents.length))) 0

def fillPayload (payload : List UInt8) (off : Nat) : List File → Ended (List UInt8 × Nat)
  | [] => .returned (payload, off)
  | f :: rest => do
      let payload ← storeAt payload off (le32 f.path.length)
      let payload ← storeAt payload (off + 4) (le32 f.contents.length)
      let off := uint32 (off + 8)
      let payload ← storeAt payload off f.path
      let off := uint32 (off + f.path.length)
      let payload ← storeAt payload off f.contents
      fillPayload payload (uint32 (off + f.contents.length)) rest

-- The layout that all of them mean.

def File.encode (f : File) : List UInt8 :=
  le32 f.path.length ++ (le32 f.contents.length ++ (f.path ++ f.contents))

def encodeFiles (files : List File) : List UInt8 := files.flatMap File.encode

structure File.Named (f : File) : Prop where
  nonempty : 0 < f.path.length
  short : f.path.length ≤ 255
  text : 0 ∉ f.path

@[simp] theorem File.encode_length (f : File) :
    f.encode.length = 8 + f.path.length + f.contents.length := by
  simp only [encode, List.length_append, le32_length]
  omega

theorem encodeFiles_cons (f : File) (files : List File) :
    encodeFiles (f :: files) = f.encode ++ encodeFiles files := rfl

theorem cText_of_text {path : Str} (h : 0 ∉ path) : cText path = path := by
  refine List.takeWhile_eq_self_iff.mpr fun c hc => ?_
  grind

theorem load32_append {pre post : List UInt8} {n : Nat} (h : n < 2 ^ 32) :
    load32 (pre ++ (le32 n ++ post)) pre.length = .returned n := by
  rw [load32, if_pos (by simp), at32_append h]

theorem loadBytes_append (pre mid post : List UInt8) :
    loadBytes (some (pre ++ (mid ++ post))) pre.length mid.length = .returned mid := by
  simp [loadBytes]

section Loop

variable {σ : Type} {visit : σ → Str → Ended (List UInt8) → Ended σ}

theorem payloadLoop_file {pre rest : List UInt8} {f : File} {rounds : Nat} {s : σ} (hf : f.Named)
    (hlimit : (pre ++ (f.encode ++ rest)).length < 2 ^ 32) :
    payloadLoop visit (pre ++ (f.encode ++ rest)) (pre ++ (f.encode ++ rest)).length (rounds + 1)
        pre.length s =
      visit s f.path (.returned f.contents) >>= fun s =>
        payloadLoop visit (pre ++ (f.encode ++ rest)) (pre ++ (f.encode ++ rest)).length rounds
          (pre ++ f.encode).length s := by
  obtain ⟨data, hdata⟩ : ∃ data, data = pre ++ (f.encode ++ rest) := ⟨_, rfl⟩
  have hlength : data.length = pre.length + (8 + f.path.length + f.contents.length) + rest.length := by
    rw [hdata]
    simp only [List.length_append, File.encode_length]
    omega
  have hpath : load32 data pre.length = .returned f.path.length := by
    rw [hdata, File.encode, List.append_assoc]
    exact load32_append (by rw [← hdata] at hlimit; omega)
  have hcount : load32 data (pre.length + 4) = .returned f.contents.length := by
    have := @load32_append (pre ++ le32 f.path.length) (f.path ++ f.contents ++ rest)
      f.contents.length (by rw [← hdata] at hlimit; omega)
    rw [List.length_append, le32_length] at this
    rw [← this, hdata, File.encode]
    simp only [List.append_assoc]
  have htext : loadBytes (some data) (pre.length + 8) f.path.length = .returned f.path := by
    have := loadBytes_append (pre ++ (le32 f.path.length ++ le32 f.contents.length)) f.path
      (f.contents ++ rest)
    simp only [List.length_append, le32_length] at this
    rw [← this, hdata, File.encode]
    simp only [List.append_assoc]
  have hcontents : loadBytes (some data) (pre.length + 8 + f.path.length) f.contents.length =
      .returned f.contents := by
    have := loadBytes_append (pre ++ (le32 f.path.length ++ (le32 f.contents.length ++ f.path)))
      f.contents rest
    simp only [List.length_append, le32_length] at this
    rw [show pre.length + (4 + (4 + f.path.length)) = pre.length + 8 + f.path.length by omega] at this
    rw [← this, hdata, File.encode]
    simp only [List.append_assoc]
  rw [← hdata] at hlimit ⊢
  have hnonempty := hf.nonempty
  rw [payloadLoop, uint32_eq_self (n := pre.length + 8) (by omega), if_neg (by omega), hpath, hcount]
  simp only [Ended.returned_bind]
  rw [uint32_eq_self (n := pre.length + 8 + f.path.length + f.contents.length) (by omega),
    if_neg (by omega), Nat.min_eq_left hf.short, htext]
  simp only [Ended.returned_bind]
  rw [cText_of_text hf.text, uint32_eq_self (n := pre.length + 8 + f.path.length) (by omega), hcontents,
    uint32_eq_self (by omega), List.length_append, File.encode_length]
  simp only [Nat.add_assoc]

theorem payloadLoop_end {pre : List UInt8} {k rounds : Nat} {s : σ}
    (hlimit : pre.length + k + 8 < 2 ^ 32) :
    payloadLoop visit (pre ++ List.replicate k 0) (pre ++ List.replicate k 0).length (rounds + 1)
      pre.length s = .returned s := by
  have hlength : (pre ++ List.replicate k (0 : UInt8)).length = pre.length + k := by simp
  rw [payloadLoop, hlength, uint32_eq_self (by omega)]
  by_cases hend : pre.length + k < pre.length + 8
  · rw [if_pos hend]
  have hzero : ∀ i, at32 (pre ++ List.replicate k 0) (pre.length + i) = 0 := by
    intro i
    refine (at32_congr fun j _ => ?_).trans (show at32 [] 0 = 0 from rfl)
    rw [List.getD_append_right _ _ _ _ (by omega), List.getD_eq_getElem?_getD, List.getElem?_replicate]
    split_ifs <;> rfl
  rw [if_neg hend, load32, if_pos (by omega), load32, if_pos (by omega), hzero 4]
  simp only [Ended.returned_bind]
  rw [show at32 (pre ++ List.replicate k 0) pre.length = 0 from hzero 0, if_pos (Or.inl rfl)]

theorem payloadLoop_files {files : List File} {pre : List UInt8} {k rounds : Nat} {s : σ}
    (hfiles : ∀ f ∈ files, f.Named)
    (hlimit : (pre ++ (encodeFiles files ++ List.replicate k 0)).length + 8 < 2 ^ 32)
    (hrounds : files.length < rounds) :
    payloadLoop visit (pre ++ (encodeFiles files ++ List.replicate k 0))
        (pre ++ (encodeFiles files ++ List.replicate k 0)).length rounds pre.length s =
      files.foldlM (fun s f => visit s f.path (.returned f.contents)) s := by
  induction files generalizing pre rounds s with
  | nil =>
    obtain ⟨rounds, rfl⟩ : ∃ n, rounds = n + 1 := ⟨rounds - 1, by omega⟩
    simp only [List.length_append, List.length_replicate] at hlimit
    exact payloadLoop_end (by omega)
  | cons f files ih =>
    obtain ⟨rounds, rfl⟩ : ∃ n, rounds = n + 1 := ⟨rounds - 1, by omega⟩
    have hshape : pre ++ (encodeFiles (f :: files) ++ List.replicate k 0) =
        pre ++ (f.encode ++ (encodeFiles files ++ List.replicate k 0)) := by
      rw [encodeFiles_cons, List.append_assoc]
    have hnext : pre ++ (f.encode ++ (encodeFiles files ++ List.replicate k 0)) =
        (pre ++ f.encode) ++ (encodeFiles files ++ List.replicate k 0) := by
      rw [List.append_assoc]
    rw [hshape] at hlimit ⊢
    rw [payloadLoop_file (hfiles f (by simp)) (by omega), List.foldlM_cons]
    congr 1
    funext s'
    rw [hnext]
    exact ih (fun g hg => hfiles g (List.mem_cons_of_mem _ hg)) (by rw [← hnext]; exact hlimit)
      (by rw [List.length_cons] at hrounds; omega)

end Loop

theorem collect_files (files acc : List File) :
    files.foldlM (fun s f => collect s f.path (.returned f.contents)) acc =
      Ended.returned (acc ++ files) := by
  induction files generalizing acc with
  | nil => rw [List.append_nil]; rfl
  | cons f files ih =>
    rw [List.foldlM_cons, collect]
    simp only [Ended.returned_bind]
    rw [ih, List.append_assoc, List.singleton_append]

theorem length_lt_encodeFiles {files : List File} (h : ∀ f ∈ files, f.Named) :
    files.length ≤ (encodeFiles files).length := by
  induction files with
  | nil => exact Nat.le_refl _
  | cons f files ih =>
    have := ih fun g hg => h g (List.mem_cons_of_mem _ hg)
    rw [encodeFiles_cons, List.length_append, File.encode_length, List.length_cons]
    omega

theorem parsePayload_encoded {files : List File} {k : Nat} (hfiles : ∀ f ∈ files, f.Named)
    (hlimit : (encodeFiles files).length + k + 8 < 2 ^ 32) :
    parsePayload (encodeFiles files ++ List.replicate k 0) = .returned files := by
  have hcount := length_lt_encodeFiles hfiles
  have hloop := @payloadLoop_files (List File) collect files [] k payloadRounds [] hfiles
    (by grind)
    (by unfold payloadRounds; omega)
  rw [collect_files, List.nil_append] at hloop
  exact hloop

theorem storeAt_end {pre rest bytes : List UInt8} (h : bytes.length ≤ rest.length) :
    storeAt (pre ++ rest) pre.length bytes =
      .returned ((pre ++ bytes) ++ rest.drop bytes.length) := by
  unfold storeAt storeBytes
  by_cases hempty : bytes = []
  · rw [if_pos hempty, hempty]
    simp
  · rw [if_neg hempty]
    simp only
    rw [if_pos (by simp only [List.length_append]; omega)]
    simp only [Ended.returned_bind, Option.getD_some, splice]
    rw [List.take_left, ← List.drop_drop, List.drop_left]

theorem fillPayload_eq {files : List File} {pre rest : List UInt8}
    (hlimit : pre.length + rest.length < 2 ^ 32) (hrest : rest.length = (encodeFiles files).length) :
    fillPayload (pre ++ rest) pre.length files =
      .returned (pre ++ encodeFiles files, pre.length + (encodeFiles files).length) := by
  induction files generalizing pre rest with
  | nil =>
    have hempty : rest = [] := List.length_eq_zero_iff.mp hrest
    rw [hempty]
    rfl
  | cons f files ih =>
    rw [encodeFiles_cons, List.length_append, File.encode_length] at hrest
    have hhead := @storeAt_end pre rest (le32 f.path.length) (by rw [le32_length]; omega)
    have hcount := @storeAt_end (pre ++ le32 f.path.length) (rest.drop 4) (le32 f.contents.length)
      (by rw [le32_length, List.length_drop]; omega)
    have hpath := @storeAt_end ((pre ++ le32 f.path.length) ++ le32 f.contents.length)
      ((rest.drop 4).drop 4) f.path (by simp only [List.length_drop]; omega)
    have hbytes := @storeAt_end (((pre ++ le32 f.path.length) ++ le32 f.contents.length) ++ f.path)
      (((rest.drop 4).drop 4).drop f.path.length) f.contents (by simp only [List.length_drop]; omega)
    have hnext := @ih (pre ++ f.encode)
      ((((rest.drop 4).drop 4).drop f.path.length).drop f.contents.length)
      (by simp only [List.length_append, File.encode_length, List.length_drop]; omega)
      (by simp only [List.length_drop]; omega)
    have hshape : (((pre ++ le32 f.path.length) ++ le32 f.contents.length) ++ f.path) ++
        f.contents = pre ++ f.encode := by
      simp only [File.encode, List.append_assoc]
    rw [hshape] at hbytes
    simp only [List.length_append, le32_length, Nat.add_assoc] at hhead hcount hpath hbytes
    rw [show pre.length + (4 + (4 + f.path.length)) = pre.length + (8 + f.path.length) by omega]
      at hbytes
    rw [fillPayload, hhead]
    simp only [Ended.returned_bind]
    rw [hcount]
    simp only [Ended.returned_bind]
    rw [uint32_eq_self (n := pre.length + 8) (by omega), hpath]
    simp only [Ended.returned_bind]
    rw [uint32_eq_self (n := pre.length + 8 + f.path.length) (by omega), Nat.add_assoc, hbytes]
    simp only [Ended.returned_bind]
    rw [uint32_eq_self (by omega)]
    simp only [List.length_append, File.encode_length] at hnext
    rw [show pre.length + (8 + f.path.length) + f.contents.length =
      pre.length + (8 + f.path.length + f.contents.length) by omega, hnext, encodeFiles_cons]
    simp only [List.append_assoc, List.length_append, File.encode_length, Nat.add_assoc]

theorem payloadTotal_eq (files : List File) : payloadTotal files = uint32 (encodeFiles files).length := by
  have hfold : ∀ total, files.foldl (fun total f =>
      uint32 (total + uint32 (8 + f.path.length + f.contents.length))) (uint32 total) =
      uint32 (total + (encodeFiles files).length) := by
    induction files with
    | nil => exact fun total => rfl
    | cons f files ih =>
      intro total
      have hstep : uint32 (uint32 total + uint32 (8 + f.path.length + f.contents.length)) =
          uint32 (total + f.encode.length) := by
        rw [File.encode_length]
        unfold uint32
        omega
      rw [List.foldl_cons, hstep, ih, encodeFiles_cons, List.length_append, Nat.add_assoc]
  have := hfold 0
  rwa [Nat.zero_add] at this

end Wirth.Kernel.Storage

import Wirth.Kernel.Fs.Changes
import Wirth.Kernel.Syscall.Syscall
import Wirth.Kernel.Task.FirstDispatch

namespace Wirth.Kernel.Syscall

open Wirth.Lib Wirth.Lib.X86 Wirth.Kernel.Fs Wirth.Kernel.UserSafety Wirth.Kernel.Scheduler

def StringEnds (memory : Word → UInt8) (ptr : Word) (maxLen : Nat) : Prop :=
  ptr.toNat + maxLen ≤ 0xC0000000 ∨
    ∃ i, ptr.toNat + i < 0xC0000000 ∧ memory (ptr + BitVec.ofNat 32 i) = 0

namespace Machine

section Ranges

variable {a : Word} {count : Nat}

theorem always_loads : Logged.Always InUserSpace (loads a count) ↔
    ∀ x ∈ span a count, Between 0x08000000 0xC0000000 x := by
  simp only [loads, Logged.always_tell, List.mem_map, forall_exists_index, and_imp,
    forall_apply_eq_imp_iff₂, InUserSpace, Access.address, isUserPointer_iff]
  rfl

theorem always_stores {bytes : List UInt8} (hlo : 0x08000000 ≤ a.toNat)
    (hhi : a.toNat + bytes.length ≤ 0xC0000000) : Logged.Always InUserSpace (stores a bytes) := by
  simp only [stores, Logged.always_tell, List.mem_map]
  rintro e ⟨⟨x, v⟩, hx, rfl⟩
  exact (isUserPointer_iff x).mpr (between_span hlo hhi (by decide) x (List.of_mem_zip hx).1)

end Ranges

section Strings

variable {memory : Word → UInt8}

theorem always_findZero (n : Nat) {a : Word} (hlo : 0x08000000 ≤ a.toNat)
    (hhi : a.toNat ≤ 0xC0000000) :
    Logged.Always InUserSpace (findZero memory n a) ↔ StringEnds memory a n := by
  induction n generalizing a with
  | zero => exact ⟨fun _ => .inl hhi, fun _ => Logged.always_pure _⟩
  | succ n ih =>
    have hload : Logged.Always InUserSpace (loadByte memory a) ↔ a.toNat < 0xC0000000 := by
      simp only [loadByte, Logged.Always, List.mem_singleton, forall_eq, InUserSpace, Access.address,
        isUserPointer_iff]
      exact and_iff_right hlo
    rw [findZero, Logged.always_bind, hload]
    by_cases hend : a.toNat = 0xC0000000
    · -- the scan has come to the kernel
      constructor
      · omega
      · rintro (h | ⟨i, hi, -⟩) <;> omega
    have hnext : (a + 1).toNat = a.toNat + 1 := by bv_omega
    have hstep : ∀ i, a + 1 + BitVec.ofNat 32 i = a + BitVec.ofNat 32 (i + 1) := by
      bv_omega
    change a.toNat < 0xC0000000 ∧ Logged.Always InUserSpace
      (if memory a = 0 then pure true else findZero memory n (a + 1)) ↔ _
    by_cases hzero : memory a = 0
    · rw [if_pos hzero]
      refine ⟨fun h => .inr ⟨0, h.1, ?_⟩, fun _ => ⟨by omega, Logged.always_pure _⟩⟩
      rw [BitVec.add_zero]
      exact hzero
    · rw [if_neg hzero, ih (by omega) (by omega), StringEnds, StringEnds, hnext]
      constructor
      · grind
      · rintro (h | ⟨i, hi, h⟩)
        · exact ⟨by omega, .inl (by omega)⟩
        · cases i with
          | zero =>
            grind [BitVec.add_zero]
          | succ i =>
            grind

theorem findZero_found {n m : Nat} {a : Word} (hnm : n ≤ m)
    (h : (findZero memory n a).value = true) :
    (findZero memory n a).events = (span a ((textAt memory m a).length + 1)).map .load := by
  induction n generalizing a m with
  | zero => cases h
  | succ n ih =>
    obtain ⟨m, rfl⟩ : ∃ k, m = k + 1 := ⟨m - 1, by omega⟩
    rw [findZero, Logged.events_bind, textAt]
    change (if memory a = 0 then pure true else findZero memory n (a + 1)).value = true at h
    change [Access.load a] ++ (if memory a = 0 then pure true else findZero memory n (a + 1)).events = _
    by_cases hzero : memory a = 0
    · rw [if_pos hzero, if_pos hzero]
      simp [span]
    · rw [if_neg hzero] at h ⊢
      rw [if_neg hzero, ih (Nat.le_of_succ_le_succ hnm) h, List.length_cons, span_succ a]
      rfl

theorem examinedFrom_le (outSize written : Nat) (prevSlash : Bool) (text : Str) :
    examinedFrom outSize written prevSlash text ≤ text.length + 1 := by
  induction text generalizing written prevSlash with
  | nil => exact le_refl _
  | cons c rest ih =>
    grind [examinedFrom]

theorem examined_le (text : Str) : examined text ≤ text.length + 1 := by
  cases text with
  | nil => exact le_refl _
  | cons c rest =>
    grind [examinedFrom_le, examined]

theorem always_pathArgument {k : Machine} {pathPtr : Word}
    (hfound : (findZero k.memory 512 pathPtr).value = true)
    (h : Logged.Always InUserSpace (findZero k.memory 512 pathPtr)) :
    Logged.Always InUserSpace (k.pathArgument pathPtr) := by
  have hle := examined_le (textAt k.memory (2 ^ 32) pathPtr)
  have hevents := findZero_found (show 512 ≤ 2 ^ 32 by decide) hfound
  have hall : Logged.Always InUserSpace
      (loads pathPtr ((textAt k.memory (2 ^ 32) pathPtr).length + 1)) := by
    rw [Logged.Always, hevents] at h
    exact h
  rw [pathArgument, Logged.always_bind]
  refine ⟨?_, Logged.always_pure _⟩
  rw [always_loads] at hall ⊢
  intro x hx
  obtain ⟨i, hi, rfl⟩ := mem_span.mp hx
  exact hall _ (mem_span.mpr ⟨i, lt_of_lt_of_le hi hle, rfl⟩)

variable {k : Machine} {pathPtr : Word}

theorem always_string (hring : k.ring = 3) {α : Type} {yes no : Logged Access α}
    (hno : Logged.Always InUserSpace no)
    (hyes : Logged.Always InUserSpace (findZero k.memory 512 pathPtr) →
      (findZero k.memory 512 pathPtr).value = true → Logged.Always InUserSpace yes) :
    Logged.Always InUserSpace (do
        let refused ← k.refusesString pathPtr
        if refused then no else yes) ↔
      (isUserPointer pathPtr = true → StringEnds k.memory pathPtr 512) := by
  rw [Logged.always_bind, refusesString, if_pos hring, isUserString]
  cases hptr : isUserPointer pathPtr with
  | false =>
    simp [hno]
  | true =>
    have hrange := (isUserPointer_iff pathPtr).mp hptr
    have hscan := @always_findZero k.memory 512 pathPtr hrange.1 hrange.2.le
    rw [if_neg (by decide), Logged.always_bind, Logged.value_bind]
    change (Logged.Always InUserSpace (findZero k.memory 512 pathPtr) ∧ _) ∧
      Logged.Always InUserSpace (if (!(findZero k.memory 512 pathPtr).value) = true then no else yes) ↔ _
    constructor
    · grind
    grind [Logged.always_pure]

theorem always_onPath (hring : k.ring = 3) (call : RamFs → Option Str → Int × RamFs)
    (answer : Int → Word) :
    Logged.Always InUserSpace (k.onPath pathPtr call answer) ↔
      (k.fs.isSome = true → isUserPointer pathPtr = true → StringEnds k.memory pathPtr 512) := by
  rw [onPath]
  cases hfs : k.fs with
  | none =>
    simp
  | some fs =>
    by_cases hzero : pathPtr = 0
    · have hptr : isUserPointer pathPtr = false := by
        rw [hzero]
        decide
      rw [hptr]
      simp [hzero]
    · simp only [if_neg hzero, Option.isSome_some, forall_const]
      apply always_string hring (Logged.always_pure _)
      grind [Logged.always_bind, always_pathArgument, Logged.always_pure]

end Strings

section Buffers

variable {k : Machine}

theorem isUserBuffer_of_not_refuses (hring : k.ring = 3) {ptr size : Word}
    (h : ¬k.refusesBuffer ptr size = true) : isUserBuffer ptr size = true := by
  rw [refusesBuffer, decide_eq_true hring, Bool.true_and, Bool.not_eq_true'] at h
  exact Bool.eq_true_of_not_eq_false h

theorem always_sysWrite (hring : k.ring = 3) (fd bufferPtr length : Word) :
    Logged.Always InUserSpace (k.sysWrite fd bufferPtr length) := by
  rw [sysWrite]
  generalize (if kWriteChunkLimit < length then kWriteChunkLimit else length) = safeLen
  by_cases hzero : safeLen = 0
  · rw [if_pos hzero]
    exact Logged.always_pure _
  rw [if_neg hzero]
  by_cases hrefused : k.refusesBuffer bufferPtr safeLen = true
  · rw [if_pos hrefused]
    exact Logged.always_pure _
  rw [if_neg hrefused]
  obtain ⟨hlo, hhi⟩ := isUserBuffer_spec (isUserBuffer_of_not_refuses hring hrefused)
  have hloads : Logged.Always InUserSpace (loads bufferPtr safeLen.toNat) :=
    always_loads.mpr (between_span hlo hhi (by decide))
  by_cases hfd : fd = 1 ∨ fd = 2
  · rw [if_pos hfd, Logged.always_bind]
    exact ⟨hloads, Logged.always_pure _⟩
  rw [if_neg hfd]
  cases k.fs with
  | none => exact Logged.always_pure _
  | some fs =>
    dsimp only
    split
    · exact Logged.always_pure _
    · simp [hloads]
    grind [Logged.always_pure, Logged.always_bind]

theorem always_sysSleep (ticks : Word) : Logged.Always InUserSpace (k.sysSleep ticks) := by
  grind [sysSleep, Logged.always_pure]

theorem always_sysClose (fd : Word) : Logged.Always InUserSpace (k.sysClose fd) := by
  grind [sysClose, Logged.always_pure]

theorem read_length {fs fs' : RamFs} {fd n : Int} {count : UInt32} {bytes : List UInt8}
    (h : fs.read fd true count = .returned (n, bytes, fs')) : bytes.length ≤ count.toNat := by
  rw [RamFs.read, if_neg (by decide)] at h
  have hnone : ∀ m, (Ended.returned (m, ([] : List UInt8), fs)) = .returned (n, bytes, fs') →
      bytes.length ≤ count.toNat := by
    rintro m heq
    cases heq
    exact Nat.zero_le _
  split at h
  · exact hnone _ h
  · dsimp only at h
    split at h
    · exact hnone _ h
    · split_ifs at h
      · exact hnone _ h
      · exact hnone _ h
      · obtain ⟨loaded, hloaded, h⟩ := Ended.bind_eq_returned.mp h
        have hbytes : loaded = bytes := (Prod.mk.inj (Prod.mk.inj (Ended.returned.inj h)).2).1
        rw [← hbytes, (loadBytes_returned hloaded).1]
        exact min_le_left _ _

theorem always_sysRead (hring : k.ring = 3) (fd bufferPtr count : Word) :
    Logged.Always InUserSpace (k.sysRead fd bufferPtr count) := by
  rw [sysRead]
  cases k.fs with
  | none => exact Logged.always_pure _
  | some fs =>
    dsimp only
    by_cases hnull : bufferPtr = 0
    · rw [if_pos hnull]
      exact Logged.always_pure _
    rw [if_neg hnull]
    by_cases hzero : count = 0
    · rw [if_pos hzero]
      exact Logged.always_pure _
    rw [if_neg hzero]
    by_cases hrefused : k.refusesBuffer bufferPtr count = true
    · rw [if_pos hrefused]
      exact Logged.always_pure _
    rw [if_neg hrefused]
    obtain ⟨hlo, hhi⟩ := isUserBuffer_spec (isUserBuffer_of_not_refuses hring hrefused)
    split
    · exact Logged.always_pure _
    · exact Logged.always_pure _
    · rename_i n bytes fs' hread
      have hlength : bytes.length ≤ count.toNat := read_length hread
      grind [Logged.always_bind, always_stores, Logged.always_pure]

end Buffers

section Entries

variable {k : Machine}

theorem always_storeEntries {entriesPtr : Word} {entries : List DirEntry}
    (hname : ∀ e ∈ entries, e.name.length < 64) (hlo : 0x08000000 ≤ entriesPtr.toNat)
    (hhi : entriesPtr.toNat + entries.length * 68 ≤ 0xC0000000) :
    Logged.Always InUserSpace (storeEntries entriesPtr entries) := by
  induction entries generalizing entriesPtr with
  | nil => exact Logged.always_pure _
  | cons e rest ih =>
    
    rw [storeEntries, Logged.always_bind, Logged.always_bind]
    refine ⟨always_stores hlo ?_, always_stores ?_ ?_, ?_⟩
    · grind
    · bv_omega
    · grind
    grind [sizeofDirEntry]

theorem directoryEntry_name {directory : Str} {inode : Inode} {e : DirEntry}
    (h : directoryEntry directory inode = some e) : e.name.length < 64 := by
  rw [directoryEntry] at h
  split_ifs at h
  split at h
  · cases h
  · split_ifs at h
    cases h
    exact lt_of_le_of_lt (List.length_take_le _ _) (by decide)

theorem readdir_entries (fs : RamFs) (path : Option Str) (maxEntries : UInt32) :
    (fs.readdir path true maxEntries).2.length ≤ maxEntries.toNat ∧
      ∀ e ∈ (fs.readdir path true maxEntries).2, e.name.length < 64 := by
  have hnone : ([] : List DirEntry).length ≤ maxEntries.toNat ∧
      ∀ e ∈ ([] : List DirEntry), e.name.length < 64 := ⟨Nat.zero_le _, nofun⟩
  rw [RamFs.readdir]
  split
  · exact hnone
  split
  · exact hnone
  grind [directoryEntry_name]

theorem always_sysReaddir (hring : k.ring = 3) (pathPtr entriesPtr maxEntries : Word) :
    Logged.Always InUserSpace (k.sysReaddir pathPtr entriesPtr maxEntries) ↔
      (k.fs.isSome = true → entriesPtr ≠ 0 → maxEntries ≠ 0 →
        isUserPointer pathPtr = true → StringEnds k.memory pathPtr 512) := by
  rw [sysReaddir]
  cases k.fs with
  | none =>
    simp
  | some fs =>
    dsimp only
    by_cases hnull : pathPtr = 0 ∨ entriesPtr = 0
    · rw [if_pos hnull]
      refine ⟨?_, fun _ => Logged.always_pure _⟩
      rintro - - hentries - hptr
      rcases hnull with rfl | rfl
      · cases hptr
      · exact absurd rfl hentries
    rw [if_neg hnull]
    rw [not_or] at hnull
    have hsafe : (if kMaxDirEntries < maxEntries then kMaxDirEntries else maxEntries) = 0 ↔
        maxEntries = 0 := by
      by_cases hmany : kMaxDirEntries < maxEntries
      · grind [kMaxDirEntries]
      · rw [if_neg hmany]
    have hbound : (if kMaxDirEntries < maxEntries then kMaxDirEntries else maxEntries).toNat ≤ 32 := by
      by_cases hmany : kMaxDirEntries < maxEntries
      · rw [if_pos hmany]
        decide
      · rw [if_neg hmany]
        simp only [kMaxDirEntries] at hmany
        bv_omega
    generalize (if kMaxDirEntries < maxEntries then kMaxDirEntries else maxEntries) = safeMax
      at hsafe hbound ⊢
    by_cases hzero : safeMax = 0
    · grind [Logged.always_pure]
    rw [if_neg hzero]
    have hmax : maxEntries ≠ 0 := fun h => hzero (hsafe.mpr h)
    simp only [Option.isSome_some, hnull.2, hmax, ne_eq, not_false_eq_true, forall_const]
    apply always_string hring (Logged.always_pure _)
    intro hall hvalue
    by_cases hrefused : k.refusesBuffer entriesPtr (safeMax * sizeofDirEntry) = true
    · rw [if_pos hrefused]
      exact Logged.always_pure _
    rw [if_neg hrefused]
    obtain ⟨hlo, hhi⟩ := isUserBuffer_spec (isUserBuffer_of_not_refuses hring hrefused)
    have hbytes : (safeMax * sizeofDirEntry).toNat = safeMax.toNat * 68 := by
      exact Nat.mod_eq_of_lt (by change safeMax.toNat * 68 < 2 ^ 32; omega)
    obtain ⟨hcount, hnames⟩ := readdir_entries fs
      (some (k.pathArgument pathPtr).value) (UInt32.ofBitVec safeMax)
    have hcount' : _ ≤ safeMax.toNat := hcount
    rw [Logged.always_bind, Logged.always_bind]
    refine ⟨always_pathArgument hvalue hall, ?_, Logged.always_pure _⟩
    exact always_storeEntries hnames hlo (by omega)

end Entries

def scannedString (number arg0 arg1 arg2 : Word) : Option Word :=
  match Number.ofWord number with
  | some .open | some .md | some .rd | some .unlink => some arg0
  | some .readdir => if arg1 ≠ 0 ∧ arg2 ≠ 0 then some arg0 else none
  | _ => none

-- A call from user mode keeps to user memory just when the scan for the end of a path does.
theorem user_pointers_confined_iff (k : Machine) (hring : k.ring = 3)
    (number arg0 arg1 arg2 : Word) :
    Logged.Always InUserSpace (k.syscallDispatch number arg0 arg1 arg2) ↔
      (k.fs.isSome = true → ∀ ptr, scannedString number arg0 arg1 arg2 = some ptr →
        isUserPointer ptr = true → StringEnds k.memory ptr 512) := by
  have hpath : ∀ (call : RamFs → Option Str → Int × RamFs) (answer : Int → Word),
      Logged.Always InUserSpace (k.onPath arg0 call answer) ↔
        (k.fs.isSome = true → ∀ ptr, some arg0 = some ptr →
          isUserPointer ptr = true → StringEnds k.memory ptr 512) := by
    intro call answer
    rw [always_onPath hring]
    simp only [Option.some.injEq, forall_eq']
  have hnone : ∀ {x : Logged Access Reply}, Logged.Always InUserSpace x →
      (Logged.Always InUserSpace x ↔
        (k.fs.isSome = true → ∀ ptr, (none : Option Word) = some ptr →
          isUserPointer ptr = true → StringEnds k.memory ptr 512)) := by
    intro x hx
    refine iff_of_true hx ?_
    intro _ ptr h
    cases h
  rw [syscallDispatch, scannedString]
  cases Number.ofWord number with
  | none => exact hnone (Logged.always_pure _)
  | some call =>
    cases call with
    | write => exact hnone (always_sysWrite hring _ _ _)
    | exit | getPid | getTid | procCount | getUid | getGid => exact hnone (Logged.always_pure _)
    | sleep => exact hnone (always_sysSleep _)
    | «open» | md | rd | unlink => exact hpath _ _
    | read => exact hnone (always_sysRead hring _ _ _)
    | close => exact hnone (always_sysClose _)
    | readdir =>
      dsimp only
      rw [always_sysReaddir hring]
      by_cases hargs : arg1 ≠ 0 ∧ arg2 ≠ 0
      · rw [if_pos hargs]
        simp only [Option.some.injEq, forall_eq', hargs.1, hargs.2, ne_eq, not_false_eq_true,
          forall_const]
      · rw [if_neg hargs]
        refine iff_of_true (fun _ h1 h2 => absurd ⟨h1, h2⟩ hargs) ?_
        intro _ ptr h
        cases h

def inProgram (memory : Word → UInt8) : Machine :=
  { sched := ((Trace.booted.act Trace.loadedImage Trace.firstProgram).act Trace.loadedImage
      (.timer (fun _ => 1) 0x002FFF00 10)).sched
    fs := some .cleared
    alloc := zeroed
    memory := memory
    ticks := 10 }

theorem inProgram_ring (memory : Word → UInt8) : (inProgram memory).ring = 3 := by
  have h : ((Trace.booted.act Trace.loadedImage Trace.firstProgram).act Trace.loadedImage
      (.timer (fun _ => 1) 0x002FFF00 10)).sched.currentRingLevel = 3 := by
    decide +kernel
  exact h

-- The end of the text is found on the last byte of user memory.
theorem user_pointers_confined_last :
    Logged.Always InUserSpace ((inProgram fun _ => 0).syscallDispatch 4 0xBFFFFFFF 1 0) := by
  refine (user_pointers_confined_iff _ (inProgram_ring _) _ _ _ _).mpr ?_
  rintro - ptr hptr -
  cases hptr
  exact .inr ⟨0, by decide, rfl⟩

theorem unended_path_scanned :
    (inProgram fun _ => 0x61).ring = 3 ∧
      Access.load 0xC0000000 ∈
        ((inProgram fun _ => 0x61).syscallDispatch 4 0xBFFFFFFF 1 0).events ∧
      ¬Logged.Always InUserSpace
        ((inProgram fun _ => 0x61).syscallDispatch 4 0xBFFFFFFF 1 0) := by
  have hload : Access.load 0xC0000000 ∈
      ((inProgram fun _ => 0x61).syscallDispatch 4 0xBFFFFFFF 1 0).events := by
    decide +kernel
  refine ⟨inProgram_ring _, hload, ?_⟩
  intro h
  cases h _ hload

end Machine

end Wirth.Kernel.Syscall

import Wirth.Kernel.Fs.RamFs
import Wirth.Kernel.Task.Scheduler
import Wirth.Kernel.UserSafety

namespace Wirth.Kernel.Syscall

open Wirth.Lib Wirth.Lib.X86 Wirth.Kernel.Fs Wirth.Kernel.UserSafety Wirth.Kernel.Scheduler

def kErrorInvalidSyscall : Word := 0xFFFFFFFF

def kWriteChunkLimit : Word := 4096

def kMaxPathLen : Word := 512

def kMaxDirEntries : Word := 32

def sizeofDirEntry : Word := 68

inductive Number where
  | write
  | exit
  | sleep
  | open
  | read
  | close
  | getPid
  | getTid
  | procCount
  | md
  | getUid
  | getGid
  | readdir
  | rd
  | unlink
  deriving DecidableEq

def numbers : List (Word × Number) :=
  [(1, .write), (2, .exit), (3, .sleep), (4, .open), (5, .read), (6, .close), (7, .getPid),
    (8, .getTid), (9, .procCount), (10, .md), (11, .getUid), (12, .getGid), (13, .readdir),
    (14, .rd), (15, .unlink)]

def Number.ofWord (number : Word) : Option Number := numbers.lookup number

-- What a call finds: the scheduler, `g_fs` with the heap behind it, memory as the running process
-- sees it, and the clock.
structure Machine where
  sched : Sched
  fs : Option RamFs
  alloc : Allocator
  memory : Word → UInt8
  ticks : Word

structure Reply where
  value : Ended Word
  sched : Sched
  fs : Option RamFs
  printed : Str

namespace Machine

def ring (k : Machine) : Word := k.sched.currentRingLevel

def reply (k : Machine) (value : Word) : Reply := ⟨.returned value, k.sched, k.fs, []⟩

def textAt (memory : Word → UInt8) : Nat → Word → Str
  | 0, _ => []
  | left + 1, a => if memory a = 0 then [] else memory a :: textAt memory left (a + 1)

def loads (a : Word) (count : Nat) : Logged Access Unit := .tell ((span a count).map .load)

def stores (a : Word) (bytes : List UInt8) : Logged Access Unit :=
  .tell (((span a bytes.length).zip bytes).map fun e => .store e.1 e.2)

-- How many bytes the loop of `normalize_path` looks at, the zero byte with them. It stops early
-- when its buffer is full.
def examinedFrom (outSize written : Nat) (prevSlash : Bool) : Str → Nat
  | [] => 1
  | c :: rest =>
      if c = slash then
        if prevSlash then examinedFrom outSize written true rest + 1
        else if written + 1 ≥ outSize then 1
        else examinedFrom outSize (written + 1) true rest + 1
      else if written + 1 ≥ outSize then 1
      else examinedFrom outSize (written + 1) false rest + 1

def examined : Str → Nat
  | [] => 1
  | c :: rest => if c ≠ slash then 1 else examinedFrom nameSize 1 true rest + 1

def pathArgument (k : Machine) (pathPtr : Word) : Logged Access Str := do
  let text := textAt k.memory (2 ^ 32) pathPtr
  loads pathPtr (examined text)
  pure text

def refusesString (k : Machine) (pathPtr : Word) : Logged Access Bool :=
  if k.ring = 3 then do
    let ok ← isUserString k.memory pathPtr kMaxPathLen
    pure (!ok)
  else pure false

def refusesBuffer (k : Machine) (ptr size : Word) : Bool := k.ring = 3 && !isUserBuffer ptr size

def onPath (k : Machine) (pathPtr : Word) (call : RamFs → Option Str → Int × RamFs)
    (answer : Int → Word) : Logged Access Reply :=
  match k.fs with
  | none => pure (k.reply kErrorInvalidSyscall)
  | some fs =>
      if pathPtr = 0 then pure (k.reply kErrorInvalidSyscall)
      else do
        let refused ← k.refusesString pathPtr
        if refused then pure (k.reply kErrorInvalidSyscall)
        else
          let path ← k.pathArgument pathPtr
          let (n, fs) := call fs (some path)
          pure { k.reply (if n < 0 then kErrorInvalidSyscall else answer n) with fs := some fs }

def sysWrite (k : Machine) (fd bufferPtr length : Word) : Logged Access Reply :=
  let safeLen := if kWriteChunkLimit < length then kWriteChunkLimit else length
  if safeLen = 0 then pure (k.reply 0)
  else if k.refusesBuffer bufferPtr safeLen then pure (k.reply kErrorInvalidSyscall)
  else if fd = 1 ∨ fd = 2 then do
    loads bufferPtr safeLen.toNat
    pure { k.reply safeLen with printed := (span bufferPtr safeLen.toNat).map k.memory }
  else match k.fs with
    | none => pure (k.reply kErrorInvalidSyscall)
    | some fs =>
        let source := if bufferPtr = 0 then none
          else some fun i => k.memory (bufferPtr + BitVec.ofNat 32 i)
        match fs.write k.alloc fd.toInt source (UInt32.ofBitVec safeLen) with
        | .diverges => pure { k.reply 0 with value := .diverges }
        | .faults => do
            loads bufferPtr safeLen.toNat
            pure { k.reply 0 with value := .faults }
        | .returned (n, fs) =>
            if n < 0 then pure { k.reply kErrorInvalidSyscall with fs := some fs }
            else do
              loads bufferPtr safeLen.toNat
              pure { k.reply (BitVec.ofInt 32 n) with fs := some fs }

def sysExit (k : Machine) (_code : Word) : Logged Access Reply :=
  pure { k.reply 0 with value := .diverges, sched := k.sched.exitCurrent }

def sysSleep (k : Machine) (ticks : Word) : Logged Access Reply :=
  if ticks = 0 then pure (k.reply 0)
  else pure { k.reply ticks with sched := k.sched.sleepCurrent ticks k.ticks }

def sysOpen (k : Machine) (pathPtr flags : Word) : Logged Access Reply :=
  k.onPath pathPtr (fun fs path => fs.openPath path (UInt32.ofBitVec flags)) (BitVec.ofInt 32)

def sysRead (k : Machine) (fd bufferPtr count : Word) : Logged Access Reply :=
  match k.fs with
  | none => pure (k.reply kErrorInvalidSyscall)
  | some fs =>
      if bufferPtr = 0 then pure (k.reply kErrorInvalidSyscall)
      else if count = 0 then pure (k.reply 0)
      else if k.refusesBuffer bufferPtr count then pure (k.reply kErrorInvalidSyscall)
      else match fs.read fd.toInt true (UInt32.ofBitVec count) with
        | .diverges => pure { k.reply 0 with value := .diverges }
        | .faults => pure { k.reply 0 with value := .faults }
        | .returned (n, bytes, fs) => do
            stores bufferPtr bytes
            pure { k.reply (if n < 0 then kErrorInvalidSyscall else BitVec.ofInt 32 n) with
              fs := some fs }

def sysClose (k : Machine) (fd : Word) : Logged Access Reply :=
  match k.fs with
  | none => pure (k.reply kErrorInvalidSyscall)
  | some fs =>
      let (n, fs) := fs.close fd.toInt
      pure { k.reply (if n < 0 then kErrorInvalidSyscall else 0) with fs := some fs }

def sysGetpid (k : Machine) : Logged Access Reply := pure (k.reply k.sched.currentProcessId)

def sysGettid (k : Machine) : Logged Access Reply := pure (k.reply k.sched.currentThreadId)

def sysProcCount (k : Machine) : Logged Access Reply := pure (k.reply k.sched.processCount)

def sysGetuid (k : Machine) : Logged Access Reply := pure (k.reply k.sched.currentUserId)

def sysGetgid (k : Machine) : Logged Access Reply := pure (k.reply k.sched.currentGroupId)

def sysMd (k : Machine) (pathPtr : Word) : Logged Access Reply :=
  k.onPath pathPtr RamFs.md fun _ => 0

-- The entries as they are written to the array of the caller: a name with its zero byte, and the
-- word behind the 64 bytes of the name.
def storeEntries (entriesPtr : Word) : List DirEntry → Logged Access Unit
  | [] => pure ()
  | e :: rest => do
      stores entriesPtr (e.name ++ [0])
      stores (entriesPtr + 64) [if e.isDirectory then 1 else 0, 0, 0, 0]
      storeEntries (entriesPtr + sizeofDirEntry) rest

def sysReaddir (k : Machine) (pathPtr entriesPtr maxEntries : Word) : Logged Access Reply :=
  match k.fs with
  | none => pure (k.reply kErrorInvalidSyscall)
  | some fs =>
      if pathPtr = 0 ∨ entriesPtr = 0 then pure (k.reply kErrorInvalidSyscall)
      else
        let safeMax := if kMaxDirEntries < maxEntries then kMaxDirEntries else maxEntries
        if safeMax = 0 then pure (k.reply 0)
        else do
          let refused ← k.refusesString pathPtr
          if refused then pure (k.reply kErrorInvalidSyscall)
          else if k.refusesBuffer entriesPtr (safeMax * sizeofDirEntry) then
            pure (k.reply kErrorInvalidSyscall)
          else
            let path ← k.pathArgument pathPtr
            let (n, entries) := fs.readdir (some path) true (UInt32.ofBitVec safeMax)
            storeEntries entriesPtr entries
            pure (k.reply (if n < 0 then kErrorInvalidSyscall else BitVec.ofInt 32 n))

def sysRd (k : Machine) (pathPtr : Word) : Logged Access Reply :=
  k.onPath pathPtr RamFs.rd fun _ => 0

def sysUnlink (k : Machine) (pathPtr : Word) : Logged Access Reply :=
  k.onPath pathPtr RamFs.unlink fun _ => 0

def syscallDispatch (k : Machine) (number arg0 arg1 arg2 : Word) : Logged Access Reply :=
  match Number.ofWord number with
  | some .write => k.sysWrite arg0 arg1 arg2
  | some .exit => k.sysExit arg0
  | some .sleep => k.sysSleep arg0
  | some .open => k.sysOpen arg0 arg1
  | some .read => k.sysRead arg0 arg1 arg2
  | some .close => k.sysClose arg0
  | some .getPid => k.sysGetpid
  | some .getTid => k.sysGettid
  | some .procCount => k.sysProcCount
  | some .md => k.sysMd arg0
  | some .getUid => k.sysGetuid
  | some .getGid => k.sysGetgid
  | some .readdir => k.sysReaddir arg0 arg1 arg2
  | some .rd => k.sysRd arg0
  | some .unlink => k.sysUnlink arg0
  | none => pure (k.reply kErrorInvalidSyscall)

end Machine

end Wirth.Kernel.Syscall

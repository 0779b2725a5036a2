import Wirth.Kernel.Storage.Payload
import Wirth.Kernel.Fs.Files
import Wirth.Lib.Program

namespace Wirth.Kernel.Storage

open Wirth.Lib Wirth.Kernel.Fs

-- The file system while it is restored, and how often the heap has been asked for a buffer.
structure Restoring where
  fs : RamFs
  allocations : Nat

-- What stands before each slash of a path, always with a slash at the start.
def parentPrefixes (path : Str) : List Str :=
  ((List.range path.length).filter fun i => 1 ≤ i ∧ path[i]? = some slash).map fun i =>
    slash :: (path.take i).drop 1

def makeParents (fs : RamFs) (path : Str) : RamFs :=
  (parentPrefixes path).foldl (fun fs parent => (fs.md (some parent)).2) fs

def replaceFlags : UInt32 := kOpenWrite ||| kOpenCreate ||| kOpenTruncate

-- A pointer and a length that reach out of the buffer are a fault as soon as they are handed on.
def restoreFile (alloc : Nat → Allocator) (s : Restoring) (path : Str) (contents : Ended (List UInt8)) :
    Ended Restoring :=
  let (fd, fs) := (makeParents s.fs path).openPath (some path) replaceFlags
  if fd < 0 then .returned { s with fs := fs }
  else do
    let bytes ← contents
    let (_, fs) ← fs.write (alloc s.allocations) fd (some fun i => bytes.getD i 0)
      (UInt32.ofNat bytes.length)
    .returned ⟨(fs.close fd).2, s.allocations + 1⟩

def markerPath (name : Str) : Str := lit "/var/lib/wirth/pkgdb/" ++ (name.take 96 ++ lit ".installed")

def createMarker (fs : RamFs) (name : Str) : RamFs :=
  let (fd, fs) := fs.openPath (some (markerPath name)) replaceFlags
  if fd < 0 then fs else (fs.close fd).2

-- The device fills as many sectors as it is told to, and faults if the buffer is smaller.
def restoreEntry (alloc : Nat → Allocator) (name : Str) (start sectors : Nat) (s : Restoring) :
    Program Restoring :=
  let size := uint32 (sectors * 512)
  let counted := { s with allocations := s.allocations + 1 }
  if (alloc s.allocations).buffer size = none then pure counted
  else if size < sectors * 512 then .ended .faults
  else do
    match ← .device (storageReadRaw start sectors) with
    | none => pure counted
    | some data => do
        let s ← .ended (payloadLoop (restoreFile alloc) data size payloadRounds 0 counted)
        pure { s with fs := createMarker s.fs name }

def restoreEntries (alloc : Nat → Allocator) (index : List UInt8) :
    Nat → Nat → Restoring → Program Restoring
  | 0, _, s => pure s
  | count + 1, off, s =>
      if 512 < uint32 (off + 12) then pure s
      else do
        let nameLen ← .ended (load32 index off)
        let start ← .ended (load32 index (off + 4))
        let sectors ← .ended (load32 index (off + 8))
        let off := uint32 (off + 12)
        if nameLen = 0 ∨ 512 < uint32 (off + nameLen) then pure s
        else do
          let name ← .ended (loadBytes (some index) off (min nameLen 127))
          let s ← restoreEntry alloc (cText name) start sectors s
          restoreEntries alloc index count (uint32 (off + nameLen)) s

def storageRestorePackages (alloc : Nat → Allocator) (fs : RamFs) : Program RamFs := do
  match ← .device (storageReadRaw indexLba 1) with
  | none => pure fs
  | some index => do
      let s ← restoreEntries alloc index (at32 index 0) 4 ⟨fs, 0⟩
      pure s.fs

end Wirth.Kernel.Storage

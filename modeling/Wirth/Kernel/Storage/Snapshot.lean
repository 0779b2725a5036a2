import Wirth.Kernel.Storage.Payload
import Wirth.Kernel.Fs.Files
import Wirth.Lib.Program

namespace Wirth.Kernel.Storage

open Wirth.Lib Wirth.Kernel.Fs

def childPath (path name : Str) : Str :=
  (if path = rootPath then path ++ name else path ++ (slash :: name)).take 255

section Walker

variable {σ : Type}

-- The loops of `Walker::compute` and `Walker::fill` over the entries of a directory. A file is
-- handled in two ways, and `false` ends the walk.
def walkEntries (walk onFile : RamFs → σ → Str → Ended (Bool × RamFs × σ)) (path : Str) :
    List DirEntry → RamFs → σ → Ended (Bool × RamFs × σ)
  | [], fs, s => .returned (true, fs, s)
  | e :: rest, fs, s => do
      let child := childPath path e.name
      let (ok, fs, s) ← (if e.isDirectory then walk else onFile) fs s child
      if ok then walkEntries walk onFile path rest fs s else .returned (false, fs, s)

-- A directory that cannot be read is passed over. Paths are longer the deeper they are.
def walkDirectory (onFile : RamFs → σ → Str → Ended (Bool × RamFs × σ)) :
    Nat → RamFs → σ → Str → Ended (Bool × RamFs × σ)
  | 0, _, _, _ => .diverges
  | depth + 1, fs, s, path =>
      let (count, entries) := fs.readdir (some path) true 64
      if count < 0 then .returned (true, fs, s)
      else walkEntries (walkDirectory onFile depth) onFile path entries fs s

-- Read a file to its end, 512 bytes at a time. The offset grows until it has reached the size.
def readLoop (chunk : σ → List UInt8 → Ended (Bool × σ)) :
    Nat → RamFs → Int → σ → Ended (Bool × RamFs × σ)
  | 0, _, _, _ => .diverges
  | rounds + 1, fs, fd, s => do
      let (n, bytes, fs) ← fs.read fd true 512
      if n < 0 then .returned (false, fs, s)
      else if n = 0 then .returned (true, fs, s)
      else do
        let (ok, s) ← chunk s bytes
        if ok then readLoop chunk rounds fs fd s else .returned (false, fs, s)

end Walker

def readRounds : Nat := 2 ^ 32

def walkDepth : Nat := 256

def measureFile (fs : RamFs) (total : Nat) (child : Str) : Ended (Bool × RamFs × Nat) :=
  let (fd, fs) := fs.openPath (some child) kOpenRead
  if fd < 0 then .returned (true, fs, total)
  else do
    let (ok, fs, len) ← readLoop (fun len bytes => .returned (true, uint32 (len + bytes.length)))
      readRounds fs fd 0
    let fs := (fs.close fd).2
    if ok = false then .returned (false, fs, total)
    else .returned (true, fs, uint32 (total + uint32 (8 + child.length + len)))

def walkerCompute (fs : RamFs) : Ended (Bool × RamFs × Nat) :=
  walkDirectory measureFile walkDepth fs 0 rootPath

structure Filling where
  payload : List UInt8
  off : Nat
  deriving DecidableEq

def fillChunk (size : Nat) (s : Filling × Nat) (bytes : List UInt8) : Ended (Bool × Filling × Nat) :=
  if size < uint32 (s.1.off + bytes.length) then .returned (false, s)
  else do
    let payload ← storeAt s.1.payload s.1.off bytes
    .returned (true, ⟨payload, uint32 (s.1.off + bytes.length)⟩, uint32 (s.2 + bytes.length))

-- The length of the contents is put into the header once it is known.
def fillFile (size : Nat) (fs : RamFs) (s : Filling) (child : Str) : Ended (Bool × RamFs × Filling) :=
  let (fd, fs) := fs.openPath (some child) kOpenRead
  if fd < 0 then .returned (true, fs, s)
  else if size < uint32 (s.off + 8 + child.length) then .returned (false, (fs.close fd).2, s)
  else do
    let header := s.off
    let payload ← storeAt s.payload header (le32 child.length)
    let payload ← storeAt payload (header + 4) (le32 0)
    let payload ← storeAt payload (uint32 (header + 8)) child
    let off := uint32 (uint32 (header + 8) + child.length)
    let (ok, fs, s, len) ← readLoop (fillChunk size) readRounds fs fd (⟨payload, off⟩, 0)
    if ok = false then .returned (false, (fs.close fd).2, s)
    else do
      let payload ← storeAt s.payload (header + 4) (le32 len)
      .returned (true, (fs.close fd).2, { s with payload := payload })

def walkerFill (fs : RamFs) (size : Nat) (payload : List UInt8) : Ended (Bool × RamFs × Filling) :=
  walkDirectory (fillFile size) walkDepth fs ⟨payload, 0⟩ rootPath

def storageSnapshotSave (st : StorageState) (alloc : Allocator) (fs : RamFs) (name : Option Str) :
    Program (Bool × StorageState × RamFs) :=
  match name with
  | none => pure (false, st, fs)
  | some name =>
      if st.ready = false then pure (false, st, fs)
      else do
        let (ok, fs, total) ← .ended (walkerCompute fs)
        if ok = false ∨ total = 0 then pure (false, st, fs)
        else match alloc.buffer total with
          | none => pure (false, st, fs)
          | some payload => do
              let (ok, fs, s) ← .ended (walkerFill fs total payload)
              if ok = false then pure (false, st, fs)
              else do
                let (st, handle) ← .device (storageWrite st (some (s.payload.take s.off)))
                match handle with
                | none => pure (false, st, fs)
                | some h => do
                    let ok ← .device (storageAddIndexEntry name h.startLba h.sectors)
                    pure (ok, st, fs)

end Wirth.Kernel.Storage

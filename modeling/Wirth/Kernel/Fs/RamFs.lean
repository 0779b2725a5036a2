import Wirth.Kernel.Fs.Path
import Wirth.Lib.Buffer
import Wirth.Lib.Ended
import Wirth.Lib.Slots
import Wirth.Lib.Word

namespace Wirth.Kernel.Fs

open Wirth.Lib

def kMaxInodes : Nat := 64

def kMaxFds : Nat := 32

def kFdOffset : Int := 3

def kOpenRead : UInt32 := 1

def kOpenWrite : UInt32 := 2

def kOpenCreate : UInt32 := 4

def kOpenTruncate : UInt32 := 8

-- The data is a buffer of `capacity` bytes, or there is none yet.
structure Inode where
  used : Bool
  isDirectory : Bool
  name : Str
  data : Option (List UInt8)
  size : Nat
  capacity : Nat
  deriving DecidableEq

def Inode.empty : Inode := ⟨false, false, [], none, 0, 0⟩

structure FileDescriptor where
  used : Bool
  inode : Option (Fin kMaxInodes)
  offset : Nat
  flags : UInt32
  deriving DecidableEq

def FileDescriptor.empty : FileDescriptor := ⟨false, none, 0, 0⟩

structure RamFs where
  inodes : Fin kMaxInodes → Inode
  fds : Fin kMaxFds → FileDescriptor

structure Allocator where
  buffer : Nat → Option (List UInt8)
  length_eq : ∀ {n b}, buffer n = some b → b.length = n

-- `copy_bytes` into and out of a buffer. Copying nothing touches nothing.

def storeBytes (data : Option (List UInt8)) (offset : Nat) (bytes : List UInt8) :
    Ended (Option (List UInt8)) :=
  if bytes = [] then .returned data
  else match data with
    | none => .faults
    | some buffer =>
        if offset + bytes.length ≤ buffer.length then .returned (some (splice buffer offset bytes))
        else .faults

def loadBytes (data : Option (List UInt8)) (offset count : Nat) : Ended (List UInt8) :=
  if count = 0 then .returned []
  else match data with
    | none => .faults
    | some buffer =>
        if offset + count ≤ buffer.length then .returned ((buffer.drop offset).take count)
        else .faults

def int32 (n : Nat) : Int := Int.bmod n (2 ^ 32)

-- Doubling in 32 bits. After 32 rounds the capacity is 0 and stays so.
def growCapacity : Nat → Nat → Nat → Option Nat
  | 0, _, _ => none
  | rounds + 1, capacity, required =>
      if capacity < required then growCapacity rounds (uint32 (capacity * 2)) required
      else some capacity

def Inode.contents (inode : Inode) : Ended (List UInt8) :=
  if inode.data.isSome ∧ 0 < inode.size then loadBytes inode.data 0 inode.size else .returned []

def ensureCapacity (alloc : Allocator) (inode : Inode) (required : Nat) : Ended (Bool × Inode) :=
  if required ≤ inode.capacity then .returned (true, inode)
  else
    match growCapacity 33 (if inode.capacity = 0 then 64 else inode.capacity) required with
    | none => .diverges
    | some newCapacity =>
        match alloc.buffer newCapacity with
        | none => .returned (false, inode)
        | some newData => do
            let data ← storeBytes (some newData) 0 (← inode.contents)
            .returned (true, { inode with data := data, capacity := newCapacity })

namespace RamFs

def setInode (st : RamFs) (i : Fin kMaxInodes) (inode : Inode) : RamFs :=
  { st with inodes := Function.update st.inodes i inode }

def setFd (st : RamFs) (f : Fin kMaxFds) (desc : FileDescriptor) : RamFs :=
  { st with fds := Function.update st.fds f desc }

def findInode (st : RamFs) (path : Str) : Option (Fin kMaxInodes) :=
  firstSlot (fun inode => inode.used && inode.name = path) st.inodes

def createInode (st : RamFs) (path : Str) (isDirectory : Bool) : Option (Fin kMaxInodes × RamFs) :=
  (firstSlot (fun inode => !inode.used) st.inodes).map fun i =>
    (i, st.setInode i ⟨true, isDirectory, copyText path nameSize, none, 0, 0⟩)

def parentDirectoryExists (st : RamFs) (path : Str) : Bool :=
  if path = rootPath then true
  else if path.length < 2 then false
  else if nameSize ≤ path.length then false
  else match st.findInode (parentPath path) with
    | none => false
    | some i => (st.inodes i).isDirectory

def allocFd (st : RamFs) : Option (Fin kMaxFds) :=
  firstSlot (fun desc => !desc.used) st.fds

def getFd (st : RamFs) (fd : Int) : Option (Fin kMaxFds) :=
  let index := fd - kFdOffset
  if h : 0 ≤ index ∧ index.toNat < kMaxFds then
    if (st.fds ⟨index.toNat, h.2⟩).used then some ⟨index.toNat, h.2⟩ else none
  else none

def truncated (st : RamFs) (i : Fin kMaxInodes) (flags : UInt32) : RamFs :=
  if flags &&& kOpenTruncate ≠ 0 ∧ flags &&& kOpenWrite ≠ 0 then
    st.setInode i { st.inodes i with size := 0 }
  else st

def openFd (st : RamFs) (i : Fin kMaxInodes) (flags : UInt32) : Int × RamFs :=
  match st.allocFd with
  | none => (-1, st)
  | some f => (f.val + kFdOffset, st.setFd f ⟨true, some i, 0, flags⟩)

def openInode (st : RamFs) (i : Fin kMaxInodes) (flags : UInt32) : Int × RamFs :=
  if (st.inodes i).isDirectory then (-1, st) else (st.truncated i flags).openFd i flags

def openPath (st : RamFs) (path : Option Str) (flags : UInt32) : Int × RamFs :=
  match normalizePath path nameSize with
  | none => (-1, st)
  | some normalized =>
      if normalized = rootPath then (-1, st)
      else match st.findInode normalized with
        | some i => st.openInode i flags
        | none =>
            if flags &&& kOpenCreate = 0 then (-1, st)
            else if st.parentDirectoryExists normalized = false then (-1, st)
            else match st.createInode normalized false with
              | none => (-1, st)
              | some (i, st) => st.openInode i flags

-- The bytes are those that go to the caller's buffer; no buffer is a null pointer.
def read (st : RamFs) (fd : Int) (buf : Bool) (count : UInt32) :
    Ended (Int × List UInt8 × RamFs) :=
  if buf = false then .returned (-1, [], st)
  else match st.getFd fd with
    | none => .returned (-1, [], st)
    | some f =>
        let desc := st.fds f
        match desc.inode with
        | none => .returned (-1, [], st)
        | some i =>
            if desc.flags &&& kOpenRead = 0 then .returned (-1, [], st)
            else if (st.inodes i).size ≤ desc.offset then .returned (0, [], st)
            else do
              let n := min count.toNat ((st.inodes i).size - desc.offset)
              let bytes ← loadBytes (st.inodes i).data desc.offset n
              .returned (int32 n, bytes, st.setFd f { desc with offset := desc.offset + n })

-- The caller's buffer is what stands in memory from its address on.
def write (st : RamFs) (alloc : Allocator) (fd : Int) (buf : Option (Nat → UInt8))
    (count : UInt32) : Ended (Int × RamFs) :=
  match buf with
  | none => .returned (-1, st)
  | some source =>
      match st.getFd fd with
      | none => .returned (-1, st)
      | some f =>
          let desc := st.fds f
          match desc.inode with
          | none => .returned (-1, st)
          | some i =>
              if desc.flags &&& kOpenWrite = 0 then .returned (-1, st)
              else do
                let stop := uint32 (desc.offset + count.toNat)
                let (ok, inode) ← ensureCapacity alloc (st.inodes i) stop
                if ok = false then .returned (-1, st.setInode i inode)
                else
                  let data ← storeBytes inode.data desc.offset ((List.range count.toNat).map source)
                  let size := if inode.size < stop then stop else inode.size
                  .returned (int32 count.toNat,
                    (st.setInode i { inode with data := data, size := size }).setFd f
                      { desc with offset := stop })

def close (st : RamFs) (fd : Int) : Int × RamFs :=
  match st.getFd fd with
  | none => (-1, st)
  | some f => (0, st.setFd f .empty)

def md (st : RamFs) (path : Option Str) : Int × RamFs :=
  match normalizePath path nameSize with
  | none => (-1, st)
  | some normalized =>
      if normalized = rootPath then (0, st)
      else match st.findInode normalized with
        | some i => (if (st.inodes i).isDirectory then 0 else -1, st)
        | none =>
            if st.parentDirectoryExists normalized = false then (-1, st)
            else match st.createInode normalized true with
              | none => (-1, st)
              | some (_, st) => (0, st)

end RamFs

structure DirEntry where
  name : Str
  isDirectory : Bool
  deriving DecidableEq

-- What follows the name of the directory and its slash in the name of an inode.
def belowDirectory (directory name : Str) : Option Str :=
  if directory = rootPath then
    if name.head? ≠ some slash ∨ name.length < 2 then none else some (name.drop 1)
  else if nameSize ≤ directory.length + 1 then none
  else if (directory ++ [slash]).isPrefixOf name then some (name.drop (directory.length + 1))
  else none

def directoryEntry (directory : Str) (inode : Inode) : Option DirEntry :=
  if inode.used = false ∨ inode.name = directory then none
  else match belowDirectory directory inode.name with
    | none => none
    | some child =>
        if child = [] ∨ slash ∈ child then none
        else some ⟨copyText child nameSize, inode.isDirectory⟩

namespace RamFs

def readdir (st : RamFs) (path : Option Str) (entries : Bool) (maxEntries : UInt32) :
    Int × List DirEntry :=
  if entries = false ∨ maxEntries = 0 then (-1, [])
  else match normalizePath path nameSize with
    | none => (-1, [])
    | some normalized =>
        match st.findInode normalized with
        | none => (-1, [])
        | some i =>
            if (st.inodes i).isDirectory = false then (-1, [])
            else
              let found := (List.finRange kMaxInodes).filterMap fun j =>
                directoryEntry normalized (st.inodes j)
              let out := found.take maxEntries.toNat
              (int32 out.length, out)

def isOpen (st : RamFs) (i : Fin kMaxInodes) : Bool :=
  (firstSlot (fun desc => desc.used && desc.inode = some i) st.fds).isSome

def hasEntries (st : RamFs) (directory : Str) : Bool :=
  (firstSlot (fun inode => inode.used && inode.name ≠ directory &&
    (directory ++ [slash]).isPrefixOf inode.name) st.inodes).isSome

def rd (st : RamFs) (path : Option Str) : Int × RamFs :=
  match normalizePath path nameSize with
  | none => (-1, st)
  | some normalized =>
      if normalized = rootPath then (-1, st)
      else match st.findInode normalized with
        | none => (-1, st)
        | some i =>
            if (st.inodes i).isDirectory = false then (-1, st)
            else if nameSize ≤ normalized.length + 1 then (-1, st)
            else if st.hasEntries normalized then (-1, st)
            else if st.isOpen i then (-1, st)
            else (0, st.setInode i .empty)

def unlink (st : RamFs) (path : Option Str) : Int × RamFs :=
  match normalizePath path nameSize with
  | none => (-1, st)
  | some normalized =>
      if normalized = rootPath then (-1, st)
      else match st.findInode normalized with
        | none => (-1, st)
        | some i =>
            if (st.inodes i).isDirectory then (-1, st)
            else if st.isOpen i then (-1, st)
            else (0, st.setInode i { Inode.empty with isDirectory := (st.inodes i).isDirectory })

end RamFs

-- What `init` puts into the empty file system, in order.

inductive Seed where
  | dir (path : Str)
  | file (path : Str) (content : List UInt8)
  deriving DecidableEq

def kInitElf : List UInt8 :=
  [0x7F, 0x45, 0x4C, 0x46, 0x01, 0x01, 0x01, 0x00, 0x00, 0x00, 0x00, 0x00,
    0x00, 0x00, 0x00, 0x00, 0x02, 0x00, 0x03, 0x00, 0x01, 0x00, 0x00, 0x00,
    0x54, 0x00, 0x00, 0x08, 0x34, 0x00, 0x00, 0x00, 0x00, 0x00, 0x00, 0x00,
    0x00, 0x00, 0x00, 0x00, 0x34, 0x00, 0x20, 0x00, 0x01, 0x00, 0x00, 0x00,
    0x00, 0x00, 0x00, 0x00, 0x01, 0x00, 0x00, 0x00, 0x00, 0x00, 0x00, 0x00,
    0x00, 0x00, 0x00, 0x08, 0x00, 0x00, 0x00, 0x08, 0x62, 0x00, 0x00, 0x00,
    0x62, 0x00, 0x00, 0x00, 0x05, 0x00, 0x00, 0x00, 0x00, 0x10, 0x00, 0x00,
    0xB8, 0x02, 0x00, 0x00, 0x00, 0xBB, 0x2A, 0x00, 0x00, 0x00, 0xCD, 0x80,
    0xEB, 0xFE]

def kHomeEntries : List Str :=
  [lit "Desktop", lit "Documents", lit "Downloads", lit "Images", lit "Musics", lit "Templates",
    lit "Videos", lit "Workspace", lit "Docs"]

-- The path of an entry is put together in an array of characters, if it fits.
def homePath (base entry : Str) : Option Str :=
  if base = [] ∨ nameSize ≤ base.length + 1 then none
  else
    let path := if base.getLast? = some slash then base else base ++ [slash]
    if nameSize ≤ path.length + entry.length then none else some (path ++ entry)

def homeSeeds (base : Str) : List (Option Seed) :=
  kHomeEntries.map fun entry => (homePath base entry).map .dir

def initSeeds : List (Option Seed) :=
  [some (.dir (lit "/")), some (.file (lit "/test.txt") (lit "Hello from ramfs!\n")),
    some (.dir (lit "/bin")), some (.dir (lit "/home")), some (.dir (lit "/home/root")),
    some (.dir (lit "/root")), some (.dir (lit "/etc")), some (.dir (lit "/usr")),
    some (.dir (lit "/usr/bin")), some (.dir (lit "/usr/share")), some (.dir (lit "/usr/share/doc")),
    some (.dir (lit "/usr/share/doc/wirth")), some (.dir (lit "/var")), some (.dir (lit "/var/lib")),
    some (.dir (lit "/var/lib/wirth")), some (.dir (lit "/var/lib/wirth/pkgdb")),
    some (.dir (lit "/opt")), some (.dir (lit "/opt/demo")), some (.dir (lit "/etc/apt")),
    some (.dir (lit "/etc/apt/sources.list.d")),
    some (.file (lit "/etc/passwd") (lit "root:x:0:0:root:/root:/bin/init.elf\n")),
    some (.file (lit "/root/.profile") [])] ++
  homeSeeds (lit "/root") ++ homeSeeds (lit "/home/root") ++
  [some (.file (lit "/bin/init.elf") kInitElf)]

namespace RamFs

def cleared : RamFs := ⟨fun _ => .empty, fun _ => .empty⟩

def plant (st : RamFs) (alloc : Allocator) : Seed → Ended (Bool × RamFs)
  | .dir path =>
      match st.createInode path true with
      | none => .returned (false, st)
      | some (_, st) => .returned (true, st)
  | .file path content =>
      match st.createInode path false with
      | none => .returned (false, st)
      | some (i, st) => do
          let (ok, inode) ← ensureCapacity alloc (st.inodes i) content.length
          if ok = false then .returned (false, st)
          else
            let data ← storeBytes inode.data 0 content
            .returned (true, st.setInode i { inode with data := data, size := content.length })

def plantAll (alloc : Nat → Allocator) : Nat → List (Option Seed) → RamFs → Ended (Bool × RamFs)
  | _, [], st => .returned (true, st)
  | _, none :: _, st => .returned (false, st)
  | k, some seed :: rest, st => do
      let (ok, st) ← st.plant (alloc k) seed
      if ok then plantAll alloc (k + 1) rest st else .returned (false, st)

def init (alloc : Nat → Allocator) : Ended (Bool × RamFs) := plantAll alloc 0 initSeeds cleared

end RamFs

end Wirth.Kernel.Fs

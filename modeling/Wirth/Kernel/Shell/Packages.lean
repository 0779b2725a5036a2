import Wirth.Kernel.Storage.Restore

namespace Wirth.Kernel.Shell

open Wirth.Lib Wirth.Kernel.Fs Wirth.Kernel.Storage

structure PackageDefinition where
  name : Str
  version : Str
  files : List File
  deriving DecidableEq

def kPkgDbDir : Str := lit "/var/lib/wirth/pkgdb"

def kAptDir : Str := lit "/etc/apt"

def kAptSourcesDir : Str := lit "/etc/apt/sources.list.d"

def kDocDir : Str := lit "/usr/share/doc/wirth"

def kBaseSystemFiles : List File :=
  [⟨lit "/etc/issue", lit "wirth OS - package-managed shell build\n"⟩,
    ⟨lit "/etc/apt/sources.list.d/wirth.list", lit "deb local://wirth stable main\n"⟩,
    ⟨lit "/usr/share/doc/wirth/base-system.txt", lit "Base system metadata package.\n"⟩]

def kHomeLayoutFiles : List File :=
  [⟨lit "/root/README.txt", lit "Root home workspace managed by wirth packages.\n"⟩,
    ⟨lit "/home/root/README.txt", lit "Primary home directory for the root user.\n"⟩,
    ⟨lit "/home/root/Documents/README.txt", lit "Documents folder seeded by the package manager.\n"⟩,
    ⟨lit "/home/root/Downloads/README.txt", lit "Downloads folder seeded by the package manager.\n"⟩,
    ⟨lit "/home/root/Desktop/README.txt", lit "Desktop folder seeded by the package manager.\n"⟩]

def kDevToolsFiles : List File :=
  [⟨lit "/usr/share/doc/wirth/devtools.txt", lit "Developer tools and shell inspection helpers.\n"⟩,
    ⟨lit "/usr/share/doc/wirth/apt.txt", lit "wirth apt-like package manager.\n"⟩,
    ⟨lit "/usr/share/doc/wirth/commands.txt", lit "Shell command families and aliases.\n"⟩]

def kDemoDocsFiles : List File :=
  [⟨lit "/opt/demo/hello.txt", lit "Hello from a package-installed demo payload.\n"⟩,
    ⟨lit "/opt/demo/notes.txt", lit "This package proves file installation works.\n"⟩]

def kPackages : List PackageDefinition :=
  [⟨lit "base-system", lit "1.0", kBaseSystemFiles⟩, ⟨lit "home-layout", lit "1.0", kHomeLayoutFiles⟩,
    ⟨lit "devtools", lit "1.0", kDevToolsFiles⟩, ⟨lit "demo-docs", lit "1.0", kDemoDocsFiles⟩]

def pathExists (fs : RamFs) (path : Str) : Bool × RamFs :=
  if 0 ≤ (fs.readdir (some path) true 1).1 then (true, fs)
  else
    let (fd, fs) := fs.openPath (some path) kOpenRead
    if fd < 0 then (false, fs) else (true, (fs.close fd).2)

def kFileChunk : UInt32 := 128

def sinkLoop : Nat → RamFs → Int → Ended RamFs
  | 0, _, _ => .diverges
  | rounds + 1, fs, fd => do
      let (n, _, fs) ← fs.read fd true kFileChunk
      if 0 < n then sinkLoop rounds fs fd else .returned fs

def writeFileText (alloc : Allocator) (fs : RamFs) (path text : Str) (appendMode : Bool) :
    Ended (Bool × RamFs) :=
  let base := kOpenWrite ||| kOpenCreate
  let flags := if appendMode then base ||| kOpenRead else base ||| kOpenTruncate
  let (fd, fs) := fs.openPath (some path) flags
  if fd < 0 then .returned (false, fs)
  else do
    let fs ← if appendMode then sinkLoop (2 ^ 32) fs fd else .returned fs
    let (wr, fs) ← fs.write alloc fd (some fun i => text.getD i 0) (UInt32.ofNat text.length)
    .returned (0 ≤ wr, (fs.close fd).2)

def ensureDir (fs : RamFs) (path : Str) : Bool × RamFs :=
  let (there, fs) := pathExists fs path
  if there then (true, fs)
  else
    let (r, fs) := fs.md (some path)
    (0 ≤ r, fs)

def ensureDirs (fs : RamFs) : List Str → Bool × RamFs
  | [] => (true, fs)
  | path :: rest =>
      let (ok, fs) := ensureDir fs path
      if ok then ensureDirs fs rest else (false, fs)

def ensurePackageDirs (fs : RamFs) : Bool × RamFs :=
  ensureDirs fs [lit "/var", lit "/var/lib", lit "/var/lib/wirth", kPkgDbDir, kAptDir, kAptSourcesDir,
    lit "/usr", lit "/usr/share", lit "/usr/share/doc", kDocDir, lit "/opt", lit "/opt/demo"]

-- The marker is put together in an array of characters and left empty if that is too small.
def buildPackageMarker (name : Str) : Option Str :=
  let out := copyText kPkgDbDir 96 ++ [slash]
  let out := out ++ name.take (95 - out.length)
  if 96 ≤ out.length + 12 then none else some (out ++ lit ".installed")

def packageInstalled (fs : RamFs) (pkg : PackageDefinition) : Bool × RamFs :=
  match buildPackageMarker pkg.name with
  | none => (false, fs)
  | some marker => pathExists fs marker

def installPackageFiles (alloc : Nat → Allocator) (fs : RamFs) : Nat → List File → Ended (Bool × RamFs)
  | _, [] => .returned (true, fs)
  | k, f :: rest => do
      let (ok, fs) ← writeFileText (alloc k) fs f.path f.contents false
      if ok then installPackageFiles alloc fs (k + 1) rest else .returned (false, fs)

def removePackageFiles (fs : RamFs) (pkg : PackageDefinition) : RamFs :=
  let fs := pkg.files.foldl (fun fs f => (fs.unlink (some f.path)).2) fs
  match buildPackageMarker pkg.name with
  | none => fs
  | some marker => (fs.unlink (some marker)).2

-- The end of `install_package`, once the payload is on the disk and in the index.
def writeMarker (alloc : Allocator) (fs : RamFs) (pkg : PackageDefinition) : Ended (Bool × RamFs) :=
  match buildPackageMarker pkg.name with
  | none => .returned (false, removePackageFiles fs pkg)
  | some marker => do
      let (ok, fs) ← writeFileText alloc fs marker pkg.version false
      if ok then .returned (true, fs) else .returned (false, removePackageFiles fs pkg)

def installPackage (st : StorageState) (alloc : Nat → Allocator) (fs : RamFs) (pkg : PackageDefinition) :
    Program (Bool × StorageState × RamFs) :=
  let (ok, fs) := ensurePackageDirs fs
  if ok = false then pure (false, st, fs)
  else
    let (installed, fs) := packageInstalled fs pkg
    if installed then pure (true, st, fs)
    else do
      let (ok, fs) ← .ended (installPackageFiles alloc fs 0 pkg.files)
      if ok = false then pure (false, st, removePackageFiles fs pkg)
      else
        let total := payloadTotal pkg.files
        match (alloc pkg.files.length).buffer total with
        | none => pure (false, st, removePackageFiles fs pkg)
        | some payload => do
            let (payload, _) ← .ended (fillPayload payload 0 pkg.files)
            let (st, handle) ← .device (storageWrite st (some payload))
            match handle with
            | none => pure (false, st, removePackageFiles fs pkg)
            | some h => do
                let ok ← .device (storageAddIndexEntry pkg.name h.startLba h.sectors)
                if ok = false then pure (false, st, removePackageFiles fs pkg)
                else do
                  let (ok, fs) ← .ended (writeMarker (alloc (pkg.files.length + 1)) fs pkg)
                  pure (ok, st, fs)

-- What is installed is removed and installed again. The result says whether there was no failure.
def upgradePackages (st : StorageState) (alloc : Nat → Nat → Allocator) (fs : RamFs) :
    Nat → List PackageDefinition → Program (Bool × StorageState × RamFs)
  | _, [] => pure (true, st, fs)
  | k, pkg :: rest =>
      let (installed, fs) := packageInstalled fs pkg
      if installed then do
        let (ok, st, fs) ← installPackage st (alloc k) (removePackageFiles fs pkg) pkg
        let (oks, st, fs) ← upgradePackages st alloc fs (k + 1) rest
        pure (ok && oks, st, fs)
      else upgradePackages st alloc fs (k + 1) rest

end Wirth.Kernel.Shell

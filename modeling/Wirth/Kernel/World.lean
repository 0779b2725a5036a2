import Wirth.Kernel.Storage.Snapshot
import Wirth.Kernel.Shell.Packages

namespace Wirth.Kernel

open Wirth.Lib Wirth.Kernel.Fs Wirth.Kernel.Storage Wirth.Kernel.Shell

structure World where
  disk : Disk
  storage : StorageState
  fs : RamFs

def boot (init restore : Nat → Allocator) : Program (Bool × StorageState × RamFs) := do
  let st ← .device (storageInit .initial true)
  let (ok, fs) ← .ended (RamFs.init init)
  let fs ← storageRestorePackages restore fs
  pure (ok, st, fs)

inductive Op where
  | write (data : List UInt8)
  | snapshot (alloc : Allocator) (name : Option Str)
  | install (alloc : Nat → Allocator) (pkg : PackageDefinition)
  | remove (pkg : PackageDefinition)
  | upgrade (alloc : Nat → Nat → Allocator)
  | call (c : Call)
  | reboot (init restore : Nat → Allocator)

def Op.program (st : StorageState) (fs : RamFs) : Op → Program (Bool × StorageState × RamFs)
  | .write data => do
      let (st, handle) ← .device (storageWrite st (some data))
      pure (handle.isSome, st, fs)
  | .snapshot alloc name => storageSnapshotSave st alloc fs name
  | .install alloc pkg => installPackage st alloc fs pkg
  | .remove pkg => pure (true, st, removePackageFiles fs pkg)
  | .upgrade alloc => upgradePackages st alloc fs 0 kPackages
  | .call c => do
      let (_, fs) ← .ended (fs.call c)
      pure (true, st, fs)
  | .reboot init restore => boot init restore

structure World.Steps (w : World) (failures : Failures) (op : Op) (ok : Bool) (w' : World) : Prop where
  returned : ((op.program w.storage w.fs).exec w.disk failures).result =
    .returned (ok, w'.storage, w'.fs)
  disk : w'.disk = w.disk.apply ((op.program w.storage w.fs).exec w.disk failures).writes

inductive World.Reached (allowed : World → Failures → Op → Bool → Prop) (d : Disk) : World → Prop
  | boot {w w' : World} {failures : Failures} {init restore : Nat → Allocator} {ok : Bool}
      (hdisk : w.disk = d) (h : w.Steps failures (.reboot init restore) ok w')
      (hallowed : allowed w failures (.reboot init restore) ok) : Reached allowed d w'
  | step {w w' : World} {failures : Failures} {op : Op} {ok : Bool} (hw : Reached allowed d w)
      (h : w.Steps failures op ok w') (hallowed : allowed w failures op ok) : Reached allowed d w'

theorem World.steps_reboot {w : World} {failures : Failures} {init restore : Nat → Allocator}
    {ok : Bool} {st : StorageState} {fs : RamFs}
    (h : ((Kernel.boot init restore).exec w.disk failures).result = .returned (ok, st, fs)) :
    w.Steps failures (.reboot init restore) ok
      ⟨w.disk.apply ((Kernel.boot init restore).exec w.disk failures).writes, st, fs⟩ := ⟨h, rfl⟩

theorem Op.write_writes (data : List UInt8) (st : StorageState) (fs : RamFs) (d : Disk)
    (failures : Failures) : (((Op.write data).program st fs).exec d failures).writes =
      ((storageWrite st (some data)).exec d failures).writes := by
  rw [Op.program, Program.exec_bind (Program.exec_device _ _ _)]
  exact List.append_nil _

end Wirth.Kernel

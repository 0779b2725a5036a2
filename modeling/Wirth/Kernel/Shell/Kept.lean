import Wirth.Kernel.Shell.Packages
import Wirth.Kernel.Storage.RestoreSafety

namespace Wirth.Kernel.Shell

open Wirth.Lib Wirth.Kernel.Fs Wirth.Kernel.Storage

-- The file system stays a proper one, whatever the package manager does with it.

variable {fs fs' : RamFs}

theorem pathExists_good (h : fs.Good) (path : Str) : (pathExists fs path).2.Good := by
  unfold pathExists
  split_ifs
  · exact h
  simp only
  split_ifs
  · exact h.openPath _ _
  · exact (h.openPath _ _).close _

theorem sinkLoop_good {rounds : Nat} {fd : Int} (h : fs.Good)
    (hloop : sinkLoop rounds fs fd = .returned fs') : fs'.Good := by
  induction rounds generalizing fs with
  | zero => cases hloop
  | succ rounds ih =>
    simp only [sinkLoop, Ended.bind_eq_returned] at hloop
    obtain ⟨⟨n, bytes, mid⟩, hread, hloop⟩ := hloop
    have hmid : mid.Good := h.call (c := .read fd true kFileChunk) (by rw [RamFs.call, hread]; rfl)
    grind

theorem writeFileText_good {alloc : Allocator} {path text : Str} {appendMode ok : Bool} (h : fs.Good)
    (hwrite : writeFileText alloc fs path text appendMode = .returned (ok, fs')) : fs'.Good := by
  have hopen := fun flags => h.openPath (some path) flags
  unfold writeFileText at hwrite
  simp only at hwrite
  split_ifs at hwrite with happend hfail hfail
  · cases hwrite
    exact hopen _
  · simp only [Ended.bind_eq_returned] at hwrite
    obtain ⟨mid, hsink, ⟨wr, written⟩, hcall, he⟩ := hwrite
    cases he
    exact ((sinkLoop_good (hopen _) hsink).write hcall).close _
  · cases hwrite
    exact hopen _
  · simp only [Ended.bind_eq_returned] at hwrite
    obtain ⟨mid, hmid, ⟨wr, written⟩, hcall, he⟩ := hwrite
    cases he
    cases hmid
    exact ((hopen _).write hcall).close _

theorem ensureDirs_good (h : fs.Good) (paths : List Str) : (ensureDirs fs paths).2.Good := by
  induction paths generalizing fs with
  | nil => exact h
  | cons path rest ih =>
    have hdir : (ensureDir fs path).2.Good := by
      unfold ensureDir
      simp only
      split_ifs
      · exact pathExists_good h path
      · exact (pathExists_good h path).md _
    grind [ensureDirs]

theorem packageInstalled_good (h : fs.Good) (pkg : PackageDefinition) :
    (packageInstalled fs pkg).2.Good := by
  grind [packageInstalled, pathExists_good]

theorem installPackageFiles_good {alloc : Nat → Allocator} {k : Nat} {files : List File} {ok : Bool}
    (h : fs.Good) (hfiles : installPackageFiles alloc fs k files = .returned (ok, fs')) : fs'.Good := by
  induction files generalizing fs k with
  | nil =>
    cases hfiles
    exact h
  | cons f files ih =>
    simp only [installPackageFiles, Ended.bind_eq_returned] at hfiles
    grind [writeFileText_good]

theorem removePackageFiles_good (h : fs.Good) (pkg : PackageDefinition) :
    (removePackageFiles fs pkg).Good := by
  have hfiles : (pkg.files.foldl (fun fs f => (fs.unlink (some f.path)).2) fs).Good := by
    generalize pkg.files = files
    induction files generalizing fs with
    | nil => exact h
    | cons f files ih => exact ih (h.call (c := .unlink (some f.path)) rfl)
  unfold removePackageFiles
  split
  · exact hfiles
  · exact hfiles.call (c := .unlink _) rfl

theorem writeMarker_good {alloc : Allocator} {pkg : PackageDefinition} {ok : Bool} (h : fs.Good)
    (hmarker : writeMarker alloc fs pkg = .returned (ok, fs')) : fs'.Good := by
  unfold writeMarker at hmarker
  split at hmarker
  · grind [removePackageFiles_good]
  · simp only [Ended.bind_eq_returned] at hmarker
    obtain ⟨⟨done, mid⟩, hwrite, hmarker⟩ := hmarker
    grind [writeFileText_good, removePackageFiles_good]

end Wirth.Kernel.Shell

import Wirth.Kernel.Loader.MemoryImage

namespace Wirth.Kernel.Loader.UserlandImage

open Wirth.Lib Wirth.Lib.X86 Wirth.Kernel.Mm

variable {img : UserlandImage} {s t : Mm} {es : List Event} {q v : Word}

-- The pages that the program may use: those of its segments and the one of its stack.
def OnUserPage (img : UserlandImage) (v : Word) : Prop :=
  (∃ h ∈ img.segments, h.OnPage v) ∨ pageOf (stackPage img.highest) = pageOf v

def SameView (img : UserlandImage) (t : Mm) (m m' : Word → UInt8) : Prop :=
  ∀ v, img.OnUserPage v → m (t.physical v) = m' (t.physical v)

def Unwritten (es : List Event) (q : Word) : Prop := ∀ a value, Event.store a q value ∉ es

theorem unwritten_iff_kept : Unwritten es q ↔ ∀ memory, after memory es q = memory q := by
  constructor
  · exact fun h memory => after_unstored h
  · intro hkept a value hmem
    have hsame := @after_stored (fun _ => 0) (fun _ => 1) es q a value hmem
    grind

theorem exists_owner {h : ProgramHeader} (hmem : h ∈ img.segments) (hv : h.OnPage v) :
    ∃ k, ownerOf v img.segments.reverse = some k := by
  obtain ⟨k, -, howner⟩ := @ownerOf_append_of_mem v img.segments.reverse [] h
    (List.mem_reverse.mpr hmem) hv
  grind

theorem unwritten_iff {top : Word × Word} (hends : Job.Ends img.load s top t es)
    (hbytes : ∀ h ∈ img.segments, h.UserBytes) (hv : img.OnUserPage v) :
    Unwritten es (t.physical v) ↔ pageOf (stackPage img.highest) = pageOf v ∨
      ∃ k, ownerOf v img.segments.reverse = some k ∧ ¬k.Holds v := by
  obtain ⟨u, -, hloaded⟩ := loaded_of_ends hends hbytes
  rw [unwritten_iff_kept]
  by_cases hstack : pageOf (stackPage img.highest) = pageOf v
  · exact iff_of_true (fun memory => (hloaded memory).stack_untouched hstack) (.inl hstack)
  obtain ⟨h, hmem, hon⟩ := hv.resolve_right hstack
  obtain ⟨k, howner⟩ := exists_owner hmem hon
  have hcontents := fun memory => (hloaded memory).contents hstack howner
  by_cases hholds : k.Holds v
  · refine iff_of_false ?_ ?_
    · -- the segment has put a byte there
      intro hkept
      have hzero := (hcontents fun _ => 0).symm.trans (hkept _)
      have hone := (hcontents fun _ => 1).symm.trans (hkept _)
      grind
    simp [hstack, howner, hholds]
  simp [howner, hholds, hcontents]

end Wirth.Kernel.Loader.UserlandImage

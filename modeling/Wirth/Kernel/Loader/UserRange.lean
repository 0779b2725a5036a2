import Wirth.Kernel.Loader.Reads

namespace Wirth.Kernel.Loader

open Wirth.Lib Wirth.Lib.X86 Wirth.Kernel.Mm Wirth.Kernel.UserSafety

def IsUserPage (page : Word) : Prop := 0x08000000 ≤ page.toNat ∧ page.toNat + 4096 ≤ 0xC0000000

def InUserSpace : Event → Prop
  | .read _ => True
  | .map page _ _ => IsUserPage page
  | .store address _ _ => isUserPointer address = true

namespace ProgramHeader

-- A segment that asks for bytes or for pages asks for user space.
def AsksUserSpace (h : ProgramHeader) : Prop :=
  0 < h.memsz.toNat ∨ 0 < h.pageCount →
    0x08000000 ≤ h.vaddr.toNat ∧ h.vaddr.toNat + h.memsz.toNat ≤ 0xC0000000

instance (h : ProgramHeader) : Decidable h.AsksUserSpace :=
  inferInstanceAs (Decidable (_ → _))

variable {h : ProgramHeader}

theorem toNat_pageStart (h : ProgramHeader) :
    h.pageStart.toNat = h.vaddr.toNat / 4096 * 4096 := toNat_frameOf h.vaddr

theorem toNat_pageEnd (hend : h.vaddr.toNat + h.memsz.toNat + 0xFFF < 2 ^ 32) :
    h.pageEnd.toNat = (h.vaddr.toNat + h.memsz.toNat + 0xFFF) / 4096 * 4096 := by
  have hsum : (h.segEnd + 0xFFF).toNat = h.vaddr.toNat + h.memsz.toNat + 0xFFF := by
    rw [segEnd]
    bv_omega
  rw [← hsum]
  exact toNat_frameOf _

theorem AsksUserSpace.pages (hasks : h.AsksUserSpace) {i : Nat} (hi : i < h.pageCount) :
    IsUserPage (h.pageStart + BitVec.ofNat 32 (4096 * i)) := by
  obtain ⟨hlo, hhi⟩ := hasks (.inr (Nat.zero_lt_of_lt hi))
  have hstart := h.toNat_pageStart
  grind [toNat_pageEnd, pageCount, IsUserPage]

theorem AsksUserSpace.bytes (hasks : h.AsksUserSpace) :
    ∀ a ∈ span h.vaddr h.memsz.toNat, isUserPointer a = true := by
  intro a ha
  by_cases hzero : h.memsz.toNat = 0
  · rw [hzero] at ha
    cases ha
  · obtain ⟨hlo, hhi⟩ := hasks (.inl (Nat.pos_of_ne_zero hzero))
    exact (isUserPointer_iff a).mpr (between_span hlo hhi (by decide) a ha)

end ProgramHeader

namespace UserlandImage

-- An image that asks for user space only, the page of the stack included.
def UserOnly (img : UserlandImage) : Prop :=
  img.Accepted → (∀ h ∈ img.segments, h.AsksUserSpace) ∧
    (img.highest ≠ 0 → IsUserPage (stackPage img.highest))

-- Nothing outside user space is touched, and an image that asks for it is rejected before any
-- page is mapped.
def Confined (img : UserlandImage) (s : Mm) : Prop :=
  Logged.Always InUserSpace (img.load s) ∧
    (¬img.UserOnly → (∃ x, Job.Stops img.load s x) ∧
      ∀ page frame writable, Event.map page frame writable ∉ (img.load s).events)

variable {img : UserlandImage} {s t : Mm} {es : List Event} {ph r : Word} {n : Nat}

variable {highest : Word}

theorem always_loadSegment_inUserSpace
    (h : (img.headerAt ph).type = ptLoad → (img.headerAt ph).AsksUserSpace) :
    Logged.Always InUserSpace (img.loadSegment ph highest s) := by
  refine always_loadSegment (fun _ _ => trivial) fun hload => ?_
  refine always_placeSegment (fun _ _ => trivial) ?_ ?_ ?_
  · intro _ i hi frame
    exact (h hload).pages hi
  · exact fun _ _ _ => trivial
  · intro _ a ha physical value
    exact (h hload).bytes a ha

theorem highest_of_ends (h : Job.Ends (img.loadSegments n ph highest) s r t es) :
    r = (img.segmentsFrom n ph).foldl raise highest := by
  induction n generalizing s ph highest es with
  | zero => exact (Job.ends_pure.mp h).1
  | succ n ih =>
    rw [loadSegments, Job.ends_bind] at h
    obtain ⟨highest', s', ds, ds', hround, hrest, -⟩ := h
    rw [ih hrest, segmentsFrom]
    obtain ⟨hskip, rfl, -⟩ | ⟨hload, rfl, -⟩ := ends_loadSegment.mp hround
    · rw [if_neg hskip]
    · rw [if_pos hload]
      rfl

theorem always_loadSegments_inUserSpace
    (h : ∀ k ∈ img.segmentsFrom n ph, k.AsksUserSpace) :
    Logged.Always InUserSpace (img.loadSegments n ph highest s) := by
  induction n generalizing s ph highest with
  | zero => exact Job.always_pure _ _
  | succ n ih =>
    have hmem : ∀ k ∈ img.segmentsFrom n (ph + sizeofProgramHeader),
        k ∈ img.segmentsFrom (n + 1) ph := by
      intro k hk
      rw [segmentsFrom]
      split
      · exact List.mem_cons_of_mem _ hk
      · exact hk
    rw [loadSegments, Job.always_bind]
    refine ⟨always_loadSegment_inUserSpace ?_, fun _ _ _ _ => ih fun k hk => h k (hmem k hk)⟩
    intro hload
    apply h
    rw [segmentsFrom, if_pos hload]
    exact List.mem_cons_self

theorem asksUserSpace_of_ends {u : Unit}
    (hends : Job.Ends (img.placeSegment ph (img.headerAt ph)) s u t es)
    (h : ∀ e ∈ es, InUserSpace e) : (img.headerAt ph).AsksUserSpace := by
  obtain ⟨hpasses, ds, hmap, -, rfl⟩ := ends_placeSegment.mp hends
  simp only [List.forall_mem_append] at h
  obtain ⟨-, hpages, hcopies, hzeros⟩ := h
  intro hasks
  by_cases hzero : (img.headerAt ph).memsz.toNat = 0
  · -- no bytes, so there is a page
    have hcount : 0 < (img.headerAt ph).pageCount := by
      rcases hasks with h | h
      · omega
      · exact h
    obtain ⟨n, hn⟩ : ∃ n, (img.headerAt ph).pageCount = n + 1 := ⟨_, (Nat.succ_pred_eq_of_pos hcount).symm⟩
    rw [hn, ends_mapPages_succ] at hmap
    obtain ⟨-, ds', -, rfl⟩ := hmap
    have hfirst : IsUserPage (img.headerAt ph).pageStart :=
      hpages _ (List.mem_append_right _ List.mem_cons_self)
    have hstart := (img.headerAt ph).toNat_pageStart
    rw [IsUserPage] at hfirst
    omega
  · apply (between_span_iff (Nat.pos_of_ne_zero hzero) (show 0xC0000000 < 2 ^ 32 by decide)).mp
    intro a ha
    rw [Between, ← isUserPointer_iff]
    rw [ProgramHeader.span_memsz hpasses.1, List.mem_append] at ha
    rcases ha with ha | ha
    · obtain ⟨i, hi, rfl⟩ := mem_span.mp ha
      exact (forall_copies.mp hcopies).2 i hi
    · obtain ⟨i, hi, rfl⟩ := mem_span.mp ha
      exact forall_zeros.mp hzeros i hi

theorem asksUserSpace_of_loaded
    (hends : Job.Ends (img.loadSegments n ph highest) s r t es) (h : ∀ e ∈ es, InUserSpace e) :
    ∀ k ∈ img.segmentsFrom n ph, k.AsksUserSpace := by
  induction n generalizing s ph highest es with
  | zero => exact nofun
  | succ n ih =>
    rw [loadSegments, Job.ends_bind] at hends
    obtain ⟨highest', s', ds, ds', hround, hrest, rfl⟩ := hends
    rw [List.forall_mem_append] at h
    have hothers := ih hrest h.2
    rw [segmentsFrom]
    obtain ⟨hskip, -⟩ | ⟨hload, -, ds'', hplace, rfl⟩ := ends_loadSegment.mp hround
    · rw [if_neg hskip]
      exact hothers
    · grind [asksUserSpace_of_ends]

theorem parts_of_ends {top : Word × Word} (h : Job.Ends img.load s top t es) :
    img.Accepted ∧ ∃ hs ds u, Job.Ends img.readHeader s () s hs ∧
      Job.Ends (img.loadSegments img.phnum.toNat img.phoff 0) s img.highest u ds ∧
      img.highest ≠ 0 ∧ u.hasRoom (stackPage img.highest) true ∧
      t = u.grown (stackPage img.highest) true ∧
      es = hs ++ (ds ++ [.map (stackPage img.highest) u.nextFrame true]) := by
  rw [load, Job.ends_bind] at h
  obtain ⟨⟨⟩, s', hs, ds', hheader, h, rfl⟩ := h
  obtain ⟨haccepted, rfl⟩ := accepted_of_ends hheader
  rw [Job.ends_bind] at h
  obtain ⟨highest, u, ds, ds'', hloop, h, rfl⟩ := h
  obtain rfl : highest = img.highest := highest_of_ends hloop
  rw [Job.ends_bind] at h
  obtain ⟨userStackTop, t', ds₁, ds₂, hstack, hpure, rfl⟩ := h
  obtain ⟨-, rfl, rfl⟩ := Job.ends_pure.mp hpure
  obtain ⟨hhigh, hroom, -, rfl, rfl⟩ := ends_mapStack.mp hstack
  grind

theorem UserOnly.always (h : img.UserOnly) (s : Mm) : Logged.Always InUserSpace (img.load s) := by
  rw [load, Job.always_bind]
  refine ⟨always_readHeader (fun _ _ _ => trivial) s, ?_⟩
  intro _ t ds hheader
  obtain ⟨hsegments, hstack⟩ := h (accepted_of_ends hheader).1
  rw [Job.always_bind]
  refine ⟨always_loadSegments_inUserSpace hsegments, ?_⟩
  intro highest u ds' hloop
  obtain rfl : highest = img.highest := highest_of_ends hloop
  rw [Job.always_bind]
  exact ⟨always_mapStack (fun hhigh _ => hstack hhigh) u, fun _ _ _ _ => Job.always_pure _ _⟩

def kernelPageImage : UserlandImage :=
  ofBytes (elfHeader 0x00100000 52 1 ++ loadHeader 84 0x00100000 1 1 ++ [0xF4])

end UserlandImage

end Wirth.Kernel.Loader

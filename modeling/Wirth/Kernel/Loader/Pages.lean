import Wirth.Kernel.Loader.UserRange

namespace Wirth.Kernel.Loader

open Wirth.Lib Wirth.Lib.X86 Wirth.Kernel.Mm

namespace Mm

variable {s t : Mm} {page v w : Word} {writable : Bool}

def Free (s : Mm) (frame : Word) : Prop := ∃ f ∈ s.pmm.free, frame = BitVec.ofNat 32 (f * 4096)

theorem Free.aligned {frame : Word} (h : s.Free frame) : frameOf frame = frame := by
  obtain ⟨f, hf, rfl⟩ := h
  have hlt : f < kMaxFrames := (Pmm.mem_free.mp hf).1
  simp only [kMaxFrames] at hlt
  rw [frameOf_eq_self_iff, BitVec.toNat_ofNat, Nat.mod_eq_of_lt (by omega)]
  exact Dvd.intro_left f rfl

theorem hasRoom.frame (h : s.hasRoom page writable) :
    s.Free s.nextFrame ∧ ¬s.allocated.Free s.nextFrame ∧
      ∀ frame, s.allocated.Free frame → s.Free frame := by
  obtain ⟨-, halloc⟩ | ⟨f, hf, -, halloc⟩ := Pmm.allocFrame_spec s.counted
  · refine absurd ?_ h.1
    rw [nextFrame, halloc]
    rfl
  · have hnext : s.nextFrame = BitVec.ofNat 32 (f * 4096) := by
      rw [nextFrame, halloc]
      rfl
    have hfree : s.allocated.pmm.free = s.pmm.free.erase f := by
      have hpmm : s.allocated.pmm = s.pmm.allocFrame.2 := rfl
      rw [hpmm, halloc]
      exact Pmm.setBit_free _ _
    refine ⟨⟨f, hf, hnext⟩, ?_, ?_⟩
    · rintro ⟨g, hg, heq⟩
      rw [hfree, Finset.mem_erase] at hg
      have hflt := (Pmm.mem_free.mp hf).1
      have hglt := (Pmm.mem_free.mp hg.2).1
      simp only [kMaxFrames] at hflt hglt
      rw [hnext] at heq
      have hnat := congrArg BitVec.toNat heq
      rw [BitVec.toNat_ofNat, BitVec.toNat_ofNat, Nat.mod_eq_of_lt (by omega),
        Nat.mod_eq_of_lt (by omega)] at hnat
      exact hg.1 (by omega)
    · rintro frame ⟨g, hg, rfl⟩
      rw [hfree] at hg
      exact ⟨g, Finset.mem_of_mem_erase hg, rfl⟩

theorem grown_lookup (h : s.hasRoom page writable) (v : Word) :
    (s.grown page writable).vmm.lookup v =
      if pageOf page = pageOf v then some s.nextFrame else s.vmm.lookup v := by
  have hcall := Vmm.call_lookup s.allocated.sound (.map page s.nextFrame writable true) v
  have hok : (s.allocated.vmm.call (.map page s.nextFrame writable true)).1 = true := h.2
  rw [hok] at hcall
  simp only [true_and, PageCall.virt, PageCall.target, h.frame.1.aligned] at hcall
  exact hcall

theorem lookup_aligned {frame : Word} (h : s.vmm.lookup v = some frame) : frameOf frame = frame := by
  grind [Vmm.lookup, frameOf_frameOf]

theorem physical_of_lookup {frame : Word} (h : s.vmm.lookup v = some frame) :
    s.physical v = frame ||| pageOffset v := by
  rw [physical, h]
  rfl

theorem frameOf_physical {frame : Word} (h : s.vmm.lookup v = some frame) :
    frameOf (s.physical v) = frame := by
  rw [physical_of_lookup h, frameOf_or_pageOffset (lookup_aligned h)]

end Mm

def InPages (page : Word) (n : Nat) (v : Word) : Prop :=
  page.toNat ≤ v.toNat ∧ v.toNat < page.toNat + 4096 * n

structure Backed (s t : Mm) (page : Word) (n : Nat) : Prop where
  free : ∀ frame, t.Free frame → s.Free frame
  outside : ∀ v, ¬InPages page n v → t.vmm.lookup v = s.vmm.lookup v
  inside : ∀ v, InPages page n v → ∃ frame, t.vmm.lookup v = some frame ∧ s.Free frame ∧
    ¬t.Free frame
  apart : ∀ v w, InPages page n v → InPages page n w → t.vmm.lookup v = t.vmm.lookup w →
    pageOf v = pageOf w

theorem Backed.zero (s : Mm) (page : Word) : Backed s s page 0 := by
  have hnone : ∀ v, ¬InPages page 0 v := fun v h => by
    rw [InPages] at h
    omega
  exact ⟨fun _ h => h, fun _ _ => rfl, fun v h => absurd h (hnone v), fun v _ h => absurd h (hnone v)⟩

theorem inPages_succ {page v : Word} {n : Nat} (haligned : frameOf page = page)
    (hfits : page.toNat + 4096 * (n + 1) < 2 ^ 32) :
    InPages page (n + 1) v ↔ pageOf page = pageOf v ∨ InPages (page + 0x1000) n v := by
  obtain ⟨k, hk⟩ := frameOf_eq_self_iff.mp haligned
  grind [pageOf_eq_iff_div, InPages]

theorem aligned_next {page : Word} (h : frameOf page = page) :
    frameOf (page + 0x1000) = page + 0x1000 := by
  rw [frameOf_eq_self_iff] at h ⊢
  bv_omega

theorem Backed.cons {s t : Mm} {page : Word} {n : Nat} {writable : Bool}
    (hroom : s.hasRoom page writable) (haligned : frameOf page = page)
    (hfits : page.toNat + 4096 * (n + 1) < 2 ^ 32)
    (h : Backed (s.grown page writable) t (page + 0x1000) n) : Backed s t page (n + 1) := by
  obtain ⟨hfree, hused, hsub⟩ := hroom.frame
  obtain ⟨k, hk⟩ := frameOf_eq_self_iff.mp haligned
  have hnext : (page + 0x1000).toNat = page.toNat + 4096 := by bv_omega
  have hsplit : ∀ {v}, InPages page (n + 1) v ↔ pageOf page = pageOf v ∨ InPages (page + 0x1000) n v :=
    inPages_succ haligned hfits
  have hother : ∀ v, pageOf page = pageOf v → ¬InPages (page + 0x1000) n v := by
    intro v hv hin
    rw [pageOf_eq_iff_div] at hv
    rw [InPages] at hin
    omega
  -- the first page keeps the frame that it gets
  have hfirst : ∀ v, pageOf page = pageOf v → t.vmm.lookup v = some s.nextFrame := by
    intro v hv
    rw [h.outside v (hother v hv), Mm.grown_lookup hroom, if_pos hv]
  have hrest : ∀ v, InPages (page + 0x1000) n v → t.vmm.lookup v ≠ some s.nextFrame := by
    intro v hv heq
    obtain ⟨frame, hframe, hframefree, -⟩ := h.inside v hv
    rw [hframe, Option.some.injEq] at heq
    rw [heq] at hframefree
    exact hused hframefree
  refine ⟨fun frame hframe => hsub frame (h.free frame hframe), ?_, ?_, ?_⟩
  · intro v hv
    rw [hsplit, not_or] at hv
    rw [h.outside v hv.2, Mm.grown_lookup hroom, if_neg hv.1]
  · intro v hv
    rcases hsplit.mp hv with hv | hv
    · exact ⟨s.nextFrame, hfirst v hv, hfree, fun hstill => hused (h.free _ hstill)⟩
    · obtain ⟨frame, hframe, hframefree, hgone⟩ := h.inside v hv
      exact ⟨frame, hframe, hsub frame hframefree, hgone⟩
  · intro v w hv hw heq
    rcases hsplit.mp hv with hv | hv <;> rcases hsplit.mp hw with hw | hw
    · exact hv.symm.trans hw
    · grind
    · grind
    · exact h.apart v w hv hw heq

theorem backed_of_ends {img : UserlandImage} {ph page : Word} {n : Nat} {s t : Mm} {r : Unit}
    {es : List Event} (haligned : frameOf page = page) (hfits : page.toNat + 4096 * n < 2 ^ 32)
    (h : Job.Ends (img.mapPages ph n page) s r t es) :
    Backed s t page n ∧ ∀ a p value, Event.store a p value ∉ es := by
  induction n generalizing s page es with
  | zero =>
    obtain ⟨-, rfl, rfl⟩ := Job.ends_pure.mp h
    simp [Backed.zero]
  | succ n ih =>
    obtain ⟨hroom, ds, hrest, rfl⟩ := UserlandImage.ends_mapPages_succ.mp h
    have hnext : (page + 0x1000).toNat = page.toNat + 4096 := by bv_omega
    obtain ⟨hbacked, hstores⟩ := ih (aligned_next haligned) (by omega) hrest
    refine ⟨hbacked.cons hroom haligned hfits, ?_⟩
    grind [reads]

end Wirth.Kernel.Loader

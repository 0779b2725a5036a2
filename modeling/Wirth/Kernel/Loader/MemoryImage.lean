import Wirth.Kernel.Loader.Pages

namespace Wirth.Kernel.Loader

open Wirth.Lib Wirth.Lib.X86 Wirth.Kernel.Mm

-- Physical memory after an event, and after all of them.

def Event.apply (memory : Word → UInt8) : Event → Word → UInt8
  | .store _ physical value => Function.update memory physical value
  | _ => memory

def after (memory : Word → UInt8) (es : List Event) : Word → UInt8 := es.foldl Event.apply memory

section Memory

variable {m m' : Word → UInt8} {es : List Event} {q : Word}

theorem after_append (m : Word → UInt8) (es ds : List Event) :
    after m (es ++ ds) = after (after m es) ds := List.foldl_append

theorem after_unstored (h : ∀ a value, Event.store a q value ∉ es) : after m es q = m q := by
  induction es generalizing m with
  | nil => rfl
  | cons e rest ih =>
    have hrest : ∀ a value, Event.store a q value ∉ rest :=
      fun a value hmem => h a value (List.mem_cons_of_mem _ hmem)
    change after (Event.apply m e) rest q = m q
    rw [ih hrest]
    cases e with
    | read offset => rfl
    | map page frame writable => rfl
    | store a physical value =>
      have hne : q ≠ physical := by
        rintro rfl
        exact h a value List.mem_cons_self
      exact Function.update_of_ne hne _ _

theorem after_stored {a : Word} {value : UInt8} (h : Event.store a q value ∈ es) :
    after m es q = after m' es q := by
  induction es generalizing m m' a value with
  | nil => cases h
  | cons e rest ih =>
    change after (Event.apply m e) rest q = after (Event.apply m' e) rest q
    by_cases hrest : ∃ a value, Event.store a q value ∈ rest
    · grind
    · have hnone : ∀ a value, Event.store a q value ∉ rest :=
        fun a value hmem => hrest ⟨a, value, hmem⟩
      rw [after_unstored hnone, after_unstored hnone]
      rcases List.mem_cons.mp h with rfl | hmem
      · simp only [Event.apply, Function.update_self]
      · exact absurd hmem (hnone a value)

theorem after_of_reads (m : Word → UInt8) (offset : Word) (count : Nat) :
    after m (reads offset count) = m := by
  grind [after_unstored, reads]

end Memory

namespace UserlandImage

section Bytes

variable {img : UserlandImage} {s : Mm} {m : Word → UInt8} {n : Nat} {dst src q : Word}

theorem after_copies_other
    (h : ∀ i < n, s.physical (dst + BitVec.ofNat 32 i) ≠ q) : after m (copies s img n dst src) q = m q := by
  refine after_unstored fun a value hmem => ?_
  have hall : ∀ e ∈ copies s img n dst src, e ≠ .store a q value := by
    refine forall_copies.mpr ⟨fun _ _ => nofun, fun i hi heq => ?_⟩
    obtain ⟨-, hphysical, -⟩ := Event.store.inj heq
    exact h i hi hphysical
  exact hall _ hmem rfl

theorem after_zeros_other (h : ∀ i < n, s.physical (dst + BitVec.ofNat 32 i) ≠ q) :
    after m (zeros s n dst) q = m q := by
  refine after_unstored fun a value hmem => ?_
  have hall : ∀ e ∈ zeros s n dst, e ≠ .store a q value := by
    refine forall_zeros.mpr fun i hi heq => ?_
    obtain ⟨-, hphysical, -⟩ := Event.store.inj heq
    exact h i hi hphysical
  exact hall _ hmem rfl

theorem next_ofNat (a : Word) (i : Nat) :
    a + 1 + BitVec.ofNat 32 i = a + BitVec.ofNat 32 (i + 1) := by
  bv_omega

def Distinct (s : Mm) (n : Nat) (dst : Word) : Prop :=
  ∀ i < n, ∀ j < n, s.physical (dst + BitVec.ofNat 32 i) = s.physical (dst + BitVec.ofNat 32 j) → i = j

theorem Distinct.next (h : Distinct s (n + 1) dst) : Distinct s n (dst + 1) := by
  intro i hi j hj heq
  rw [next_ofNat, next_ofNat] at heq
  have := h (i + 1) (by omega) (j + 1) (by omega) heq
  omega

theorem Distinct.first (h : Distinct s (n + 1) dst) :
    ∀ i < n, s.physical (dst + 1 + BitVec.ofNat 32 i) ≠ s.physical dst := by
  intro i hi heq
  rw [next_ofNat] at heq
  have := h (i + 1) (by omega) 0 (by omega) (by rw [heq, BitVec.add_zero])
  omega

theorem after_copies (h : Distinct s n dst) {i : Nat} (hi : i < n) :
    after m (copies s img n dst src) (s.physical (dst + BitVec.ofNat 32 i)) =
      img.data (src + BitVec.ofNat 32 i) := by
  induction n generalizing dst src m i with
  | zero => cases hi
  | succ n ih =>
    change after (Function.update m (s.physical dst) (img.data src))
      (copies s img n (dst + 1) (src + 1)) _ = _
    cases i with
    | zero =>
      rw [BitVec.add_zero, BitVec.add_zero, after_copies_other h.first, Function.update_self]
    | succ i =>
      rw [← next_ofNat, ← next_ofNat]
      exact ih h.next (by omega)

theorem after_zeros (h : Distinct s n dst) {i : Nat} (hi : i < n) :
    after m (zeros s n dst) (s.physical (dst + BitVec.ofNat 32 i)) = 0 := by
  induction n generalizing dst m i with
  | zero => cases hi
  | succ n ih =>
    change after (Function.update m (s.physical dst) 0) (zeros s n (dst + 1)) _ = _
    cases i with
    | zero => rw [BitVec.add_zero, after_zeros_other h.first, Function.update_self]
    | succ i =>
      rw [← next_ofNat]
      exact ih h.next (by omega)

end Bytes

end UserlandImage

namespace ProgramHeader

variable {h k : ProgramHeader} {v w : Word}

-- The addresses of the segment, and those of its pages.

def Holds (h : ProgramHeader) (v : Word) : Prop :=
  h.vaddr.toNat ≤ v.toNat ∧ v.toNat < h.vaddr.toNat + h.memsz.toNat

def OnPage (h : ProgramHeader) (v : Word) : Prop := InPages h.pageStart h.pageCount v

instance (h : ProgramHeader) (v : Word) : Decidable (h.OnPage v) :=
  inferInstanceAs (Decidable (_ ∧ _))

instance (h : ProgramHeader) (v : Word) : Decidable (h.Holds v) :=
  inferInstanceAs (Decidable (_ ∧ _))

def UserBytes (h : ProgramHeader) : Prop := 0 < h.memsz.toNat →
  0x08000000 ≤ h.vaddr.toNat ∧ h.vaddr.toNat + h.memsz.toNat ≤ 0xC0000000

def expected (h : ProgramHeader) (img : UserlandImage) (i : Nat) : UInt8 :=
  if i < h.filesz.toNat then img.data (h.offset + BitVec.ofNat 32 i) else 0

theorem pageStart_aligned (h : ProgramHeader) : frameOf h.pageStart = h.pageStart :=
  frameOf_frameOf h.vaddr

theorem pages_fit (h : ProgramHeader) : h.pageStart.toNat + 4096 * h.pageCount < 2 ^ 32 := by
  
  rw [pageCount]
  omega

theorem onPage_congr (hpage : pageOf v = pageOf w) : h.OnPage v ↔ h.OnPage w := by
  obtain ⟨k, hk⟩ := frameOf_eq_self_iff.mp h.pageStart_aligned
  grind [pageOf_eq_iff_div, OnPage, InPages]

theorem onPage_iff (hend : h.vaddr.toNat + h.memsz.toNat + 0xFFF < 2 ^ 32) : h.OnPage v ↔
    h.vaddr.toNat / 4096 ≤ v.toNat / 4096 ∧
      v.toNat / 4096 < (h.vaddr.toNat + h.memsz.toNat + 0xFFF) / 4096 := by
  have hstart := h.toNat_pageStart
  grind [toNat_pageEnd, OnPage, InPages, pageCount]

theorem UserBytes.onPage (hbytes : h.UserBytes) (hv : h.Holds v) : h.OnPage v := by
  rw [Holds] at hv
  obtain ⟨hlo, hhi⟩ := hbytes (by omega)
  rw [onPage_iff (by omega)]
  omega

theorem UserBytes.exists_holds (hbytes : h.UserBytes) (hpos : 0 < h.memsz.toNat)
    (hv : h.OnPage v) : ∃ w, h.Holds w ∧ pageOf w = pageOf v := by
  obtain ⟨hlo, hhi⟩ := hbytes hpos
  rw [onPage_iff (by omega)] at hv
  by_cases hfirst : h.vaddr.toNat ≤ v.toNat / 4096 * 4096
  · refine ⟨BitVec.ofNat 32 (v.toNat / 4096 * 4096), ?_, ?_⟩
    · grind [Holds]
    grind [pageOf_eq_iff_div]
  · refine ⟨h.vaddr, ⟨le_refl _, by omega⟩, ?_⟩
    rw [pageOf_eq_iff_div]
    omega

theorem Holds.eq_add (hv : h.Holds v) : h.vaddr + BitVec.ofNat 32 (v.toNat - h.vaddr.toNat) = v := by
  obtain ⟨hlo, -⟩ := hv
  bv_omega

end ProgramHeader

-- The last segment that lies on a page, in a list with the last one first.
def ownerOf (v : Word) : List ProgramHeader → Option ProgramHeader
  | [] => none
  | h :: rest => if h.OnPage v then some h else ownerOf v rest

theorem mem_of_ownerOf {v : Word} {loaded : List ProgramHeader} {h : ProgramHeader}
    (howner : ownerOf v loaded = some h) : h ∈ loaded ∧ h.OnPage v := by
  induction loaded with
  | nil => cases howner
  | cons k rest ih =>
    grind [ownerOf]

-- What stands behind the pages of the segments that have been loaded, the last one first.
structure Placed (img : UserlandImage) (memory : Word → UInt8) (loaded : List ProgramHeader) (s : Mm)
    (m : Word → UInt8) : Prop where
  untouched : ∀ q, s.Free (frameOf q) → m q = memory q
  owned : ∀ v, (∃ h ∈ loaded, h.OnPage v) → ∃ frame, s.vmm.lookup v = some frame ∧ ¬s.Free frame
  apart : ∀ v w, (∃ h ∈ loaded, h.OnPage v) → (∃ h ∈ loaded, h.OnPage w) →
    s.vmm.lookup v = s.vmm.lookup w → pageOf v = pageOf w
  contents : ∀ v h, ownerOf v loaded = some h → m (s.physical v) =
    if h.Holds v then h.expected img (v.toNat - h.vaddr.toNat) else memory (s.physical v)

section Placing

variable {img : UserlandImage} {memory m : Word → UInt8} {loaded : List ProgramHeader} {s t : Mm}
  {es : List Event} {h : ProgramHeader}

theorem Placed.nil (img : UserlandImage) (memory : Word → UInt8) (s : Mm) :
    Placed img memory [] s memory := by
  refine ⟨fun _ _ => rfl, ?_, ?_, nofun⟩
  · rintro v ⟨h, hmem, -⟩
    cases hmem
  · rintro v w ⟨h, hmem, -⟩
    cases hmem

theorem Backed.physical_inj {page v w : Word} {n : Nat} (hbacked : Backed s t page n)
    (hv : InPages page n v) (hw : InPages page n w) (heq : t.physical v = t.physical w) : v = w := by
  obtain ⟨f, hf, -, -⟩ := hbacked.inside v hv
  obtain ⟨g, hg, -, -⟩ := hbacked.inside w hw
  rw [Mm.physical_of_lookup hf, Mm.physical_of_lookup hg] at heq
  obtain ⟨hframe, hoffset⟩ := or_pageOffset_inj (Mm.lookup_aligned hf) (Mm.lookup_aligned hg) heq
  have hpage := hbacked.apart v w hv hw (by rw [hf, hg, hframe])
  grind [pageOf_eq_iff_div, BitVec.toNat_inj]

theorem ProgramHeader.UserBytes.holds_add (hbytes : h.UserBytes) {i : Nat} (hi : i < h.memsz.toNat) :
    h.Holds (h.vaddr + BitVec.ofNat 32 i) := by
  obtain ⟨hlo, hhi⟩ := hbytes (by omega)
  rw [ProgramHeader.Holds]
  bv_omega

theorem Backed.distinct (hbacked : Backed s t h.pageStart h.pageCount) (hbytes : h.UserBytes) :
    UserlandImage.Distinct t h.memsz.toNat h.vaddr := by
  intro i hi j hj heq
  have hvw := hbacked.physical_inj (hbytes.onPage (hbytes.holds_add hi))
    (hbytes.onPage (hbytes.holds_add hj)) heq
  bv_omega

theorem after_fill (hle : ¬h.memsz < h.filesz)
    (hdistinct : UserlandImage.Distinct t h.memsz.toNat h.vaddr) :
    (∀ i < h.memsz.toNat, after m (UserlandImage.copies t img h.filesz.toNat h.vaddr h.offset ++
        UserlandImage.zeros t (h.memsz - h.filesz).toNat (h.vaddr + h.filesz))
          (t.physical (h.vaddr + BitVec.ofNat 32 i)) = h.expected img i) ∧
    ∀ q, (∀ i < h.memsz.toNat, t.physical (h.vaddr + BitVec.ofNat 32 i) ≠ q) →
      after m (UserlandImage.copies t img h.filesz.toNat h.vaddr h.offset ++
        UserlandImage.zeros t (h.memsz - h.filesz).toNat (h.vaddr + h.filesz)) q = m q := by
  have hsum := ProgramHeader.toNat_memsz hle
  have hshift : ∀ i, h.vaddr + h.filesz + BitVec.ofNat 32 i =
      h.vaddr + BitVec.ofNat 32 (h.filesz.toNat + i) := by
    bv_omega
  have hcopied : UserlandImage.Distinct t h.filesz.toNat h.vaddr :=
    fun i hi j hj heq => hdistinct i (by omega) j (by omega) heq
  have hzeroed : UserlandImage.Distinct t (h.memsz - h.filesz).toNat (h.vaddr + h.filesz) := by
    intro i hi j hj heq
    rw [hshift, hshift] at heq
    have := hdistinct _ (by omega) _ (by omega) heq
    omega
  constructor
  · intro i hi
    rw [after_append, ProgramHeader.expected]
    by_cases hfile : i < h.filesz.toNat
    · rw [if_pos hfile, UserlandImage.after_zeros_other, UserlandImage.after_copies hcopied hfile]
      intro j hj heq
      rw [hshift] at heq
      have := hdistinct _ (by omega) i hi heq
      omega
    · have hi' : h.vaddr + BitVec.ofNat 32 i =
          h.vaddr + h.filesz + BitVec.ofNat 32 (i - h.filesz.toNat) := by
        rw [hshift, Nat.add_sub_cancel' (by omega)]
      grind [UserlandImage.after_zeros]
  · intro q hq
    rw [after_append, UserlandImage.after_zeros_other, UserlandImage.after_copies_other]
    · exact fun i hi => hq i (by omega)
    grind

-- What a segment does to memory: its bytes are there, and only frames that were free are written.
structure Filled (img : UserlandImage) (s t : Mm) (m m' : Word → UInt8) (h : ProgramHeader) : Prop where
  backed : Backed s t h.pageStart h.pageCount
  bytes : ∀ v, h.Holds v → m' (t.physical v) = h.expected img (v.toNat - h.vaddr.toNat)
  slack : ∀ v, h.OnPage v → ¬h.Holds v → m' (t.physical v) = m (t.physical v)
  others : ∀ q, ¬(s.Free (frameOf q) ∧ ¬t.Free (frameOf q)) → m' q = m q

theorem filled_of_ends {ph : Word} {r : Unit} (m : Word → UInt8)
    (hbytes : (img.headerAt ph).UserBytes)
    (hends : Job.Ends (img.placeSegment ph (img.headerAt ph)) s r t es) :
    Filled img s t m (after m es) (img.headerAt ph) := by
  obtain ⟨hpasses, ds, hmap, -, rfl⟩ := UserlandImage.ends_placeSegment.mp hends
  generalize img.headerAt ph = h at hbytes hpasses hmap ⊢
  obtain ⟨hbacked, hstores⟩ := backed_of_ends h.pageStart_aligned h.pages_fit hmap
  have hbefore : after m (UserlandImage.fieldReads ph ++ ds) = m := by
    funext q
    rw [after_append, UserlandImage.fieldReads]
    exact after_unstored fun a value => hstores a q value
  rw [← List.append_assoc, after_append, hbefore]
  obtain ⟨hfill, hother⟩ := @after_fill img m t h hpasses.1 (hbacked.distinct hbytes)
  refine ⟨hbacked, ?_, ?_, ?_⟩
  · intro v hv
    have hvalue := hfill (v.toNat - h.vaddr.toNat) (by
      rw [ProgramHeader.Holds] at hv
      omega)
    rw [hv.eq_add] at hvalue
    exact hvalue
  · intro v hon hnot
    refine hother _ fun i hi heq => hnot ?_
    have hholds := hbytes.holds_add hi
    rw [hbacked.physical_inj (hbytes.onPage hholds) hon heq] at hholds
    exact hholds
  · intro q hq
    refine hother q fun i hi heq => hq ?_
    obtain ⟨frame, hframe, hfree, hgone⟩ := hbacked.inside _ (hbytes.onPage (hbytes.holds_add hi))
    grind [Mm.frameOf_physical]

theorem Placed.cons {m' : Word → UInt8} (hplaced : Placed img memory loaded s m)
    (hfilled : Filled img s t m m' h) : Placed img memory (h :: loaded) t m' := by
  have hbacked := hfilled.backed
  -- an address on another page of the segments before
  have hold : ∀ v, (∃ k ∈ h :: loaded, k.OnPage v) → ¬h.OnPage v →
      ∃ frame, t.vmm.lookup v = some frame ∧ s.vmm.lookup v = some frame ∧ ¬s.Free frame := by
    rintro v ⟨k, hk, hv⟩ hon
    rcases List.mem_cons.mp hk with rfl | hk
    · exact absurd hv hon
    · obtain ⟨frame, hframe, hgone⟩ := hplaced.owned v ⟨k, hk, hv⟩
      exact ⟨frame, (hbacked.outside v hon).trans hframe, hframe, hgone⟩
  have hdiffer : ∀ v w, h.OnPage v → (∃ k ∈ h :: loaded, k.OnPage w) → ¬h.OnPage w →
      t.vmm.lookup v ≠ t.vmm.lookup w := by
    intro v w hv hw hon heq
    obtain ⟨f, hf, hfree, -⟩ := hbacked.inside v hv
    obtain ⟨g, hg, -, hgone⟩ := hold w hw hon
    rw [hf, hg, Option.some.injEq] at heq
    rw [heq] at hfree
    exact hgone hfree
  refine ⟨?_, ?_, ?_, ?_⟩
  · intro q hq
    rw [hfilled.others q fun h => h.2 hq]
    exact hplaced.untouched q (hbacked.free _ hq)
  · intro v hv
    by_cases hon : h.OnPage v
    · obtain ⟨frame, hframe, -, hgone⟩ := hbacked.inside v hon
      exact ⟨frame, hframe, hgone⟩
    · obtain ⟨frame, hframe, -, hgone⟩ := hold v hv hon
      exact ⟨frame, hframe, fun h => hgone (hbacked.free _ h)⟩
  · intro v w hv hw heq
    by_cases hon : h.OnPage v <;> by_cases hon' : h.OnPage w
    · exact hbacked.apart v w hon hon' heq
    · exact absurd heq (hdiffer v w hon hw hon')
    · exact absurd heq.symm (hdiffer w v hon' hv hon)
    · have hmem : ∀ {x}, (∃ k ∈ h :: loaded, k.OnPage x) → ¬h.OnPage x → ∃ k ∈ loaded, k.OnPage x := by
        rintro x ⟨k, hk, hx⟩ hnot
        rcases List.mem_cons.mp hk with rfl | hk
        · exact absurd hx hnot
        · exact ⟨k, hk, hx⟩
      rw [hbacked.outside v hon, hbacked.outside w hon'] at heq
      exact hplaced.apart v w (hmem hv hon) (hmem hw hon') heq
  · intro v k howner
    rw [ownerOf] at howner
    by_cases hon : h.OnPage v
    · rw [if_pos hon] at howner
      obtain rfl := Option.some.inj howner
      by_cases hholds : h.Holds v
      · rw [if_pos hholds]
        exact hfilled.bytes v hholds
      · obtain ⟨frame, hframe, hfree, -⟩ := hbacked.inside v hon
        rw [if_neg hholds, hfilled.slack v hon hholds]
        apply hplaced.untouched
        grind [Mm.frameOf_physical]
    · rw [if_neg hon] at howner
      have hmem : ∃ k ∈ h :: loaded, k.OnPage v :=
        ⟨k, List.mem_cons_of_mem _ (mem_of_ownerOf howner).1, (mem_of_ownerOf howner).2⟩
      obtain ⟨frame, hframe, hbefore, hgone⟩ := hold v hmem hon
      have hsame : t.physical v = s.physical v := by
        simp [Mm.physical_of_lookup, hframe, hbefore]
      rw [hsame, hfilled.others]
      · exact hplaced.contents v k howner
      simp [Mm.frameOf_physical, hbefore, hgone]

end Placing

namespace UserlandImage

variable {img : UserlandImage} {memory m : Word → UInt8} {s t u : Mm} {es : List Event} {ph r : Word}
  {n : Nat} {v : Word}

theorem placed_of_ends {highest : Word} {loaded : List ProgramHeader}
    (hplaced : Placed img memory loaded s m) (hbytes : ∀ h ∈ img.segmentsFrom n ph, h.UserBytes)
    (hends : Job.Ends (img.loadSegments n ph highest) s r t es) :
    Placed img memory ((img.segmentsFrom n ph).reverse ++ loaded) t (after m es) := by
  induction n generalizing s ph highest es loaded m with
  | zero =>
    obtain ⟨-, rfl, rfl⟩ := Job.ends_pure.mp hends
    exact hplaced
  | succ n ih =>
    rw [loadSegments, Job.ends_bind] at hends
    obtain ⟨highest', s', ds, ds', hround, hrest, rfl⟩ := hends
    rw [after_append]
    obtain ⟨hskip, -, rfl, rfl⟩ | ⟨hload, -, ds₁, hplace, rfl⟩ := ends_loadSegment.mp hround
    · rw [segmentsFrom, if_neg hskip] at hbytes ⊢
      grind [after_of_reads]
    · rw [segmentsFrom, if_pos hload] at hbytes ⊢
      rw [List.forall_mem_cons] at hbytes
      rw [after_append, after_of_reads, List.reverse_cons, List.append_assoc]
      exact ih (hplaced.cons (filled_of_ends m hbytes.1 hplace)) hbytes.2 hrest

theorem passes_of_loaded {highest : Word}
    (hends : Job.Ends (img.loadSegments n ph highest) s r t es) :
    ∀ h ∈ img.segmentsFrom n ph, h.Passes img.size := by
  induction n generalizing s ph highest es with
  | zero => exact nofun
  | succ n ih =>
    rw [loadSegments, Job.ends_bind] at hends
    obtain ⟨highest', s', ds, ds', hround, hrest, -⟩ := hends
    rw [segmentsFrom]
    split_ifs with hload
    · rw [List.forall_mem_cons]
      exact ⟨passes_of_ends hround hload, ih hrest⟩
    · exact ih hrest

theorem stackPage_apart {h : ProgramHeader} (hmem : h ∈ img.segments) (hbytes : h.UserBytes)
    (hpos : 0 < h.memsz.toNat) (hv : h.OnPage v) : pageOf (stackPage img.highest) ≠ pageOf v := by
  obtain ⟨hlo, hhi⟩ := hbytes hpos
  have hend : h.segEnd.toNat = h.vaddr.toNat + h.memsz.toNat := by
    rw [ProgramHeader.segEnd]
    bv_omega
  have hle := segEnd_le_highest hmem
  have hstack : (stackPage img.highest).toNat = (img.highest + 0x1FFFF).toNat / 4096 * 4096 :=
    toNat_frameOf _
  rw [ProgramHeader.onPage_iff (by omega)] at hv
  rw [Ne, pageOf_eq_iff_div, hstack]
  by_cases hwrap : img.highest.toNat + 0x1FFFF < 2 ^ 32
  · grind
  · have hsum : (img.highest + 0x1FFFF).toNat = img.highest.toNat + 0x1FFFF - 2 ^ 32 := by bv_omega
    omega

-- What a load leaves behind the pages of the segments and of the stack.
structure Loaded (img : UserlandImage) (t u : Mm) (memory m : Word → UInt8) : Prop where
  placed : Placed img memory img.segments.reverse u m
  room : u.hasRoom (stackPage img.highest) true
  state : t = u.grown (stackPage img.highest) true

theorem loaded_of_ends {top : Word × Word} (hends : Job.Ends img.load s top t es)
    (hbytes : ∀ h ∈ img.segments, h.UserBytes) :
    ∃ u, (∀ h ∈ img.segments, h.Passes img.size) ∧
      ∀ memory, img.Loaded t u memory (after memory es) := by
  obtain ⟨-, hs, ds, u, hheader, hloop, -, hroom, rfl, rfl⟩ := parts_of_ends hends
  refine ⟨u, passes_of_loaded hloop, fun memory => ⟨?_, hroom, rfl⟩⟩
  have hplaced := placed_of_ends (Placed.nil img memory s) hbytes hloop
  rw [List.append_nil] at hplaced
  have hskip : after memory hs = memory := by
    funext q
    refine after_unstored fun a value hmem => ?_
    obtain ⟨o, -, heq⟩ := reads_of_readHeader hheader _ hmem
    cases heq
  rw [after_append, hskip, after_append]
  exact hplaced

namespace Loaded

variable (hloaded : img.Loaded t u memory m)
include hloaded

theorem lookup_of_ne (hv : pageOf (stackPage img.highest) ≠ pageOf v) :
    t.vmm.lookup v = u.vmm.lookup v := by
  rw [hloaded.state, Mm.grown_lookup hloaded.room, if_neg hv]

theorem physical_of_ne (hv : pageOf (stackPage img.highest) ≠ pageOf v) :
    t.physical v = u.physical v := by
  rw [Mm.physical, Mm.physical, hloaded.lookup_of_ne hv]

theorem lookup_stack (hv : pageOf (stackPage img.highest) = pageOf v) :
    t.vmm.lookup v = some u.nextFrame := by
  rw [hloaded.state, Mm.grown_lookup hloaded.room, if_pos hv]

theorem stack_untouched (hv : pageOf (stackPage img.highest) = pageOf v) :
    m (t.physical v) = memory (t.physical v) := by
  apply hloaded.placed.untouched
  rw [Mm.frameOf_physical (hloaded.lookup_stack hv)]
  exact hloaded.room.frame.1

theorem mapped {h : ProgramHeader} (hmem : h ∈ img.segments) (hv : h.OnPage v) :
    (t.vmm.lookup v).isSome := by
  by_cases hstack : pageOf (stackPage img.highest) = pageOf v
  · rw [hloaded.lookup_stack hstack]
    rfl
  · obtain ⟨frame, hframe, -⟩ := hloaded.placed.owned v ⟨h, List.mem_reverse.mpr hmem, hv⟩
    rw [hloaded.lookup_of_ne hstack, hframe]
    rfl

theorem contents {h : ProgramHeader} (hstack : pageOf (stackPage img.highest) ≠ pageOf v)
    (howner : ownerOf v img.segments.reverse = some h) : m (t.physical v) =
      if h.Holds v then h.expected img (v.toNat - h.vaddr.toNat) else memory (t.physical v) := by
  rw [hloaded.physical_of_ne hstack]
  exact hloaded.placed.contents v h howner

end Loaded

structure Shown (img : UserlandImage) (t : Mm) (m : Word → UInt8) : Prop where
  file : ∀ h ∈ img.segments, ∀ i < h.filesz.toNat,
    m (t.physical (h.vaddr + BitVec.ofNat 32 i)) = img.data (h.offset + BitVec.ofNat 32 i)
  zero : ∀ h ∈ img.segments, ∀ i, h.filesz.toNat ≤ i → i < h.memsz.toNat →
    m (t.physical (h.vaddr + BitVec.ofNat 32 i)) = 0
  mapped : ∀ h ∈ img.segments, ∀ v, h.OnPage v → (t.vmm.lookup v).isSome
  stack : ∀ h ∈ img.segments, ∀ v, h.Holds v → pageOf (stackPage img.highest) ≠ pageOf v

def PagesApart (img : UserlandImage) : Prop :=
  img.segments.Pairwise fun h k => 0 < h.memsz.toNat → ∀ v, ¬(h.OnPage v ∧ k.OnPage v)

theorem ownerOf_append_of_not {l l' : List ProgramHeader} (h : ∀ k ∈ l, ¬k.OnPage v) :
    ownerOf v (l ++ l') = ownerOf v l' := by
  induction l with
  | nil => rfl
  | cons k rest ih =>
    rw [List.forall_mem_cons] at h
    rw [List.cons_append, ownerOf, if_neg h.1, ih h.2]

theorem ownerOf_append_of_mem {l l' : List ProgramHeader} {k : ProgramHeader} (hk : k ∈ l)
    (hv : k.OnPage v) : ∃ k' ∈ l, ownerOf v (l ++ l') = some k' := by
  induction l with
  | nil => cases hk
  | cons k₀ rest ih =>
    rw [List.cons_append, ownerOf]
    by_cases hon : k₀.OnPage v
    · exact ⟨k₀, List.mem_cons_self, if_pos hon⟩
    grind

theorem PagesApart.ownerOf (hapart : img.PagesApart) {h : ProgramHeader} (hmem : h ∈ img.segments)
    (hpos : 0 < h.memsz.toNat) (hv : h.OnPage v) : ownerOf v img.segments.reverse = some h := by
  obtain ⟨before, behind, hsplit⟩ := List.append_of_mem hmem
  rw [PagesApart, hsplit, List.pairwise_append, List.pairwise_cons] at hapart
  rw [hsplit, List.reverse_append, List.reverse_cons, List.append_assoc, ownerOf_append_of_not]
  · exact if_pos hv
  grind

theorem exists_owner_behind {i j : Nat} (hj : j < img.segments.length)
    (hij : i < j) (hv : img.segments[j].OnPage v) :
    ∃ k ∈ img.segments.drop (i + 1), ownerOf v img.segments.reverse = some k := by
  have hmem : img.segments[j] ∈ img.segments.drop (i + 1) := by
    rw [List.mem_drop_iff_getElem]
    exact ⟨j - (i + 1), by omega, by simp only [Nat.add_sub_cancel' hij]⟩
  obtain ⟨k, hk, howner⟩ := @ownerOf_append_of_mem v (img.segments.drop (i + 1)).reverse
    (img.segments.take (i + 1)).reverse _ (List.mem_reverse.mpr hmem) hv
  grind [List.take_append_drop]

theorem rel_behind {R : ProgramHeader → ProgramHeader → Prop} (hR : img.segments.Pairwise R)
    {i : Nat} (hi : i < img.segments.length) {k : ProgramHeader}
    (hk : k ∈ img.segments.drop (i + 1)) : R img.segments[i] k := by
  obtain ⟨j, hj, rfl⟩ := List.mem_drop_iff_getElem.mp hk
  exact List.pairwise_iff_getElem.mp hR i (i + 1 + j) hi (by omega) (by omega)

theorem Shown.holds (hshown : img.Shown t m) {h : ProgramHeader} (hmem : h ∈ img.segments)
    (hv : h.Holds v) : m (t.physical v) = h.expected img (v.toNat - h.vaddr.toNat) := by
  have hlt : v.toNat - h.vaddr.toNat < h.memsz.toNat := by
    rw [ProgramHeader.Holds] at hv
    omega
  rw [ProgramHeader.expected]
  split_ifs with hfile
  · rw [← hshown.file h hmem _ hfile, hv.eq_add]
  · rw [← hshown.zero h hmem _ (not_lt.mp hfile) hlt, hv.eq_add]

theorem succ_ne (b : UInt8) : b + 1 ≠ b := by
  simp

-- The image is in memory, whatever the frames held, just when no segment with bytes shares a page
-- with one behind it.
theorem memory_image_iff {top : Word × Word} (hends : Job.Ends img.load s top t es)
    (hbytes : ∀ h ∈ img.segments, h.UserBytes)
    (hdisjoint : img.segments.Pairwise fun h k => ∀ v, ¬(h.Holds v ∧ k.Holds v)) :
    (∀ memory, img.Shown t (after memory es)) ↔ img.PagesApart := by
  obtain ⟨u, hpasses, hloaded⟩ := loaded_of_ends hends hbytes
  have hstack : ∀ h ∈ img.segments, ∀ v, h.Holds v → pageOf (stackPage img.highest) ≠ pageOf v := by
    intro h hmem v hv
    have hpos : 0 < h.memsz.toNat := by
      rw [ProgramHeader.Holds] at hv
      omega
    exact stackPage_apart hmem (hbytes h hmem) hpos ((hbytes h hmem).onPage hv)
  constructor
  · intro hshown
    rw [PagesApart, List.pairwise_iff_getElem]
    intro i j hi hj hij hpos v hboth
    have hmem := List.getElem_mem hi
    -- a byte of the first segment on the page that both have belongs to another segment
    obtain ⟨w, hw, hpage⟩ := (hbytes _ hmem).exists_holds hpos hboth.1
    obtain ⟨k, hk, howner⟩ := exists_owner_behind hj hij
      ((ProgramHeader.onPage_congr hpage).mpr hboth.2)
    have hnot : ¬k.Holds w := fun hholds => rel_behind hdisjoint hi hk w ⟨hw, hholds⟩
    -- so it is still what the frame held, and that may be anything
    let wrong : Word → UInt8 := fun _ => img.segments[i].expected img
      (w.toNat - img.segments[i].vaddr.toNat) + 1
    have hkept : after wrong es (t.physical w) = wrong (t.physical w) := by
      rw [(hloaded wrong).contents (hstack _ hmem w hw) howner, if_neg hnot]
    have hright := (hshown wrong).holds hmem hw
    rw [hkept] at hright
    exact succ_ne _ hright
  · intro hapart memory
    have hholds : ∀ h ∈ img.segments, ∀ i < h.memsz.toNat,
        after memory es (t.physical (h.vaddr + BitVec.ofNat 32 i)) = h.expected img i := by
      intro h hmem i hi
      have hv := (hbytes h hmem).holds_add hi
      have howner := hapart.ownerOf hmem (by omega) ((hbytes h hmem).onPage hv)
      rw [(hloaded memory).contents (hstack h hmem _ hv) howner, if_pos hv]
      congr 1
      obtain ⟨hlo, hhi⟩ := hbytes h hmem (by omega)
      bv_omega
    refine ⟨?_, ?_, fun h hmem v => (hloaded memory).mapped hmem, hstack⟩
    · intro h hmem i hi
      have hle := ProgramHeader.toNat_memsz (hpasses h hmem).1
      rw [hholds h hmem i (by omega), ProgramHeader.expected, if_pos hi]
    · intro h hmem i hlo hi
      rw [hholds h hmem i hi, ProgramHeader.expected, if_neg (not_lt.mpr hlo)]

-- The small image has one segment.
theorem memory_image_small : smallImage.Shown (smallImage.load Mm.sample).value.2
    (after (fun _ => 0xFF) (smallImage.load Mm.sample).events) := by
  have hvalue : (smallImage.load Mm.sample).value.1 = .ok (0x08000000, 0x08020FF0) := by
    decide +kernel
  have hsegments : smallImage.segments = [⟨1, 84, 0x08000000, 1, 2, 6⟩] := by decide +kernel
  refine (memory_image_iff (Job.ends_of_value hvalue) ?_ ?_).mpr ?_ _
  · rw [hsegments, List.forall_mem_singleton]
    exact fun _ => by decide
  · rw [hsegments]
    exact List.pairwise_singleton _ _
  · rw [PagesApart, hsegments]
    exact List.pairwise_singleton _ _

def sharedPageImage : UserlandImage :=
  ofBytes (elfHeader 0x08000000 52 2 ++ loadHeader 116 0x08000000 1 1 ++
    loadHeader 116 0x08000800 1 1 ++ [0xF4])

theorem first_segment_lost :
    (sharedPageImage.load Mm.sample).value.1 = .ok (0x08000000, 0x08020FF0) ∧
    sharedPageImage.segments = [⟨1, 116, 0x08000000, 1, 1, 6⟩, ⟨1, 116, 0x08000800, 1, 1, 6⟩] ∧
    ¬sharedPageImage.Shown (sharedPageImage.load Mm.sample).value.2
      (after (fun _ => 0) (sharedPageImage.load Mm.sample).events) := by
  have hsegments : sharedPageImage.segments =
      [⟨1, 116, 0x08000000, 1, 1, 6⟩, ⟨1, 116, 0x08000800, 1, 1, 6⟩] := by
    decide +kernel
  have hbyte : after (fun _ => 0) (sharedPageImage.load Mm.sample).events
      ((sharedPageImage.load Mm.sample).value.2.physical (0x08000000 + BitVec.ofNat 32 0)) = 0 := by
    decide +kernel
  refine ⟨by decide +kernel, hsegments, fun hshown => ?_⟩
  have hfile := hshown.file ⟨1, 116, 0x08000000, 1, 1, 6⟩ (by rw [hsegments]; exact List.mem_cons_self)
    0 (by decide)
  rw [hbyte] at hfile
  exact absurd hfile (by decide +kernel)

end UserlandImage

end Wirth.Kernel.Loader

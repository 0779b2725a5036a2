import Wirth.Kernel.Loader.Userland

namespace Wirth.Kernel.Loader

open Wirth.Lib Wirth.Lib.X86 Wirth.Kernel.Mm

section Checks

variable {s t : Mm} {es : List Event} {p : Event → Prop} {x : Halt} {c : Prop} [Decidable c]
  {text : String} {β : Type} {f : Unit → Loading β} {b : β}

theorem ends_reject {r : Unit} : Job.Ends (reject c text) s r t es ↔ ¬c ∧ t = s ∧ es = [] :=
  Job.ends_stopIf

theorem always_reject : Logged.Always p (reject c text s) := Job.always_stopIf _ s

-- What follows a check.

theorem ends_reject_bind : Job.Ends (reject c text >>= f) s b t es ↔
    ¬c ∧ Job.Ends (f ()) s b t es := by
  rw [Job.ends_bind]
  constructor
  · rintro ⟨u, s', ds, ds', h, hf, rfl⟩
    obtain ⟨hc, rfl, rfl⟩ := ends_reject.mp h
    exact ⟨hc, hf⟩
  · rintro ⟨hc, hf⟩
    exact ⟨(), s, [], es, ends_reject.mpr ⟨hc, rfl, rfl⟩, hf, rfl⟩

theorem stops_reject_bind : Job.Stops (reject c text >>= f) s x ↔
    c ∧ x = .rejected (lit text) ∨ ¬c ∧ Job.Stops (f ()) s x := by
  rw [Job.stops_bind, reject, Job.stops_stopIf]
  refine or_congr_right ⟨?_, ?_⟩
  · rintro ⟨u, s', ds, h, hf⟩
    obtain ⟨hc, rfl, rfl⟩ := ends_reject.mp h
    exact ⟨hc, hf⟩
  · rintro ⟨hc, hf⟩
    exact ⟨(), s, [], ends_reject.mpr ⟨hc, rfl, rfl⟩, hf⟩

theorem always_reject_bind : Logged.Always p ((reject c text >>= f) s) ↔
    (¬c → Logged.Always p (f () s)) := by
  rw [Job.always_bind]
  constructor
  · rintro ⟨-, h⟩ hc
    exact h () s [] (ends_reject.mpr ⟨hc, rfl, rfl⟩)
  · intro h
    refine ⟨always_reject, ?_⟩
    intro u s' ds hr
    obtain ⟨hc, rfl, rfl⟩ := ends_reject.mp hr
    exact h hc

end Checks

section Primitives

variable {s : Mm}

def reads (offset : Word) (count : Nat) : List Event := (span offset count).map .read

theorem forall_reads {p : Event → Prop} {offset : Word} {count : Nat} :
    (∀ e ∈ reads offset count, p e) ↔ ∀ o ∈ span offset count, p (.read o) := by
  simp only [reads, List.mem_map, forall_exists_index, and_imp, forall_apply_eq_imp_iff₂]

theorem reads_one (offset : Word) : reads offset 1 = [.read offset] := by
  rw [reads, span_succ, span_zero, List.map_cons, List.map_nil]

theorem reading_ends {α : Type} (offset : Word) (count : Nat) (a : α) (s : Mm) :
    Job.Ends (UserlandImage.reading offset count a) s a s (reads offset count) := rfl

-- The state after a frame has been taken, and after a page has been mapped.

def Mm.allocated (s : Mm) : Mm := { s with
  pmm := s.pmm.allocFrame.2
  counted := s.counted_allocFrame }

def Mm.mapped (s : Mm) (page phys : Word) (writable : Bool) : Mm := { s with
  vmm := (s.vmm.mapPage page phys writable true).2
  sound := s.sound.call (.map page phys writable true) }

def Mm.nextFrame (s : Mm) : Word := BitVec.ofNat 32 s.pmm.allocFrame.1

theorem allocFrame_ends (s : Mm) : Job.Ends allocFrame s s.nextFrame s.allocated [] := rfl

theorem mapPage_ends (page phys : Word) (writable : Bool) (s : Mm) :
    Job.Ends (mapPage page phys writable) s (s.vmm.mapPage page phys writable true).1
      (s.mapped page phys writable)
      (if (s.vmm.mapPage page phys writable true).1 then [.map page phys writable] else []) := rfl

-- A page that gets a frame of its own, and the state after it.

def Mm.hasRoom (s : Mm) (page : Word) (writable : Bool) : Prop :=
  s.nextFrame ≠ 0 ∧ (s.allocated.vmm.mapPage page s.nextFrame writable true).1 = true

def Mm.grown (s : Mm) (page : Word) (writable : Bool) : Mm :=
  s.allocated.mapped page s.nextFrame writable

def Mm.physical (s : Mm) (a : Word) : Word := (s.vmm.lookup a).getD 0 ||| pageOffset a

theorem store_ends {address : Word} {value : UInt8} (h : (s.vmm.lookup address).isSome) :
    Job.Ends (store address value) s () s [.store address (s.physical address) value] := by
  grind [Job.Ends, store, Mm.physical]

theorem store_stops {address : Word} {value : UInt8} (h : ¬(s.vmm.lookup address).isSome) :
    store address value s = ⟨(.error .fault, s), []⟩ := by
  rw [store, Option.not_isSome_iff_eq_none.mp h]
  rfl

end Primitives

-- Reasons that lie in the state of the kernel and not in the image.
def RanOut (x : Halt) : Prop :=
  x = .fault ∨ x = .rejected (lit "[loader] out of physical frames") ∨
    x = .rejected (lit "[loader] map user segment failed")

namespace ProgramHeader

variable (h : ProgramHeader)

def Passes (size : Word) : Prop := ¬h.memsz < h.filesz ∧ ¬size < h.offset + h.filesz

variable {h}

theorem toNat_memsz (hle : ¬h.memsz < h.filesz) :
    h.memsz.toNat = h.filesz.toNat + (h.memsz - h.filesz).toNat := by
  bv_omega

theorem span_memsz (hle : ¬h.memsz < h.filesz) : span h.vaddr h.memsz.toNat =
    span h.vaddr h.filesz.toNat ++ span (h.vaddr + h.filesz) (h.memsz - h.filesz).toNat := by
  rw [toNat_memsz hle, span_add, BitVec.ofNat_toNat, BitVec.setWidth_eq]

end ProgramHeader

namespace UserlandImage

variable {img : UserlandImage} {s t : Mm} {es : List Event} {p : Event → Prop} {x : Halt}

section Pages

variable {ph page : Word} {n : Nat} {r : Unit}

theorem writable_headerAt : decide (img.wordAt (ph + 24) &&& pfW ≠ 0) = (img.headerAt ph).writable :=
  rfl

theorem ends_mapPages_succ : Job.Ends (img.mapPages ph (n + 1) page) s r t es ↔
    s.hasRoom page (img.headerAt ph).writable ∧
      ∃ ds, Job.Ends (img.mapPages ph n (page + 0x1000)) (s.grown page (img.headerAt ph).writable)
        r t ds ∧
        es = reads (ph + 24) 4 ++ .map page s.nextFrame (img.headerAt ph).writable :: ds := by
  rw [mapPages, (allocFrame_ends s).ends_bind]
  simp only [ends_reject_bind, word, (reading_ends _ _ _ _).ends_bind,
    (mapPage_ends _ _ _ _).ends_bind, List.nil_append, writable_headerAt, Bool.not_eq_false]
  constructor
  · rintro ⟨ds', ⟨hphys, ds, ⟨ds'', ⟨hok, hrest⟩, rfl⟩, rfl⟩, rfl⟩
    rw [if_pos hok]
    exact ⟨⟨hphys, hok⟩, ds'', hrest, rfl⟩
  · rintro ⟨⟨hphys, hok⟩, ds, hrest, rfl⟩
    refine ⟨_, ⟨hphys, _, ⟨ds, ⟨hok, hrest⟩, rfl⟩, rfl⟩, ?_⟩
    rw [if_pos hok]
    rfl

theorem stops_mapPages_succ (h : Job.Stops (img.mapPages ph (n + 1) page) s x) : RanOut x ∨
    Job.Stops (img.mapPages ph n (page + 0x1000)) (s.grown page (img.headerAt ph).writable) x := by
  rw [mapPages, (allocFrame_ends s).stops_bind, stops_reject_bind, word,
    (reading_ends _ _ _ _).stops_bind, (mapPage_ends _ _ _ _).stops_bind, stops_reject_bind] at h
  rcases h with ⟨-, rfl⟩ | ⟨-, ⟨-, rfl⟩ | ⟨-, h⟩⟩
  · exact .inl (.inr (.inl rfl))
  · exact .inl (.inr (.inr rfl))
  · exact .inr h

theorem stops_mapPages (h : Job.Stops (img.mapPages ph n page) s x) : RanOut x := by
  induction n generalizing s page with
  | zero => exact absurd h Job.not_stops_pure
  | succ n ih =>
    obtain h | h := stops_mapPages_succ h
    · exact h
    · exact ih h

theorem always_mapPages (hread : ∀ o ∈ span (ph + 24) 4, p (.read o))
    (hmap : ∀ i < n, ∀ frame, p (.map (page + BitVec.ofNat 32 (4096 * i)) frame
      (img.headerAt ph).writable)) : Logged.Always p (img.mapPages ph n page s) := by
  induction n generalizing s page with
  | zero => exact Job.always_pure _ _
  | succ n ih =>
    rw [mapPages, (allocFrame_ends s).always_bind]
    refine ⟨nofun, always_reject_bind.mpr fun _ => ?_⟩
    rw [word, (reading_ends _ _ _ _).always_bind, forall_reads]
    refine ⟨hread, ?_⟩
    rw [(mapPage_ends _ _ _ _).always_bind, writable_headerAt]
    refine ⟨?_, always_reject_bind.mpr fun _ => ih ?_⟩
    · intro e he
      split_ifs at he
      · have hfirst := hmap 0 (Nat.succ_pos n) s.nextFrame
        grind [BitVec.add_zero]
      · cases he
    · intro i hi frame
      have hnext := hmap (i + 1) (Nat.succ_lt_succ hi) frame
      have heq : page + BitVec.ofNat 32 (4096 * (i + 1)) =
          page + 0x1000 + BitVec.ofNat 32 (4096 * i) := by
        bv_omega
      rw [heq] at hnext
      exact hnext

end Pages

section Bytes

variable {n : Nat} {dst src : Word}

def copies (s : Mm) (img : UserlandImage) : Nat → Word → Word → List Event
  | 0, _, _ => []
  | n + 1, dst, src =>
      .read src :: .store dst (s.physical dst) (img.data src) :: copies s img n (dst + 1) (src + 1)

def zeros (s : Mm) : Nat → Word → List Event
  | 0, _ => []
  | n + 1, dst => .store dst (s.physical dst) 0 :: zeros s n (dst + 1)

variable {address : Word} {r : Unit} {value : UInt8}

theorem ends_copyBytes : Job.Ends (img.copyBytes n dst src) s r t es ↔
    (∀ a ∈ span dst n, (s.vmm.lookup a).isSome) ∧ t = s ∧ es = copies s img n dst src := by
  induction n generalizing dst src es with
  | zero =>
    rw [copyBytes, Job.ends_pure]
    exact ⟨fun h => ⟨nofun, h.2⟩, fun h => ⟨rfl, h.2⟩⟩
  | succ n ih =>
    rw [copyBytes, byte, (reading_ends _ _ _ _).ends_bind, reads_one, span_succ,
      List.forall_mem_cons, copies]
    by_cases hmapped : (s.vmm.lookup dst).isSome
    · simp only [(store_ends hmapped).ends_bind, ih]
      grind
    · constructor
      · rintro ⟨ds, h, -⟩
        rw [Job.Ends, Job.bind_error (store_stops hmapped)] at h
        cases h
      simp [hmapped]

theorem ends_zeroBytes : Job.Ends (zeroBytes n dst) s r t es ↔
    (∀ a ∈ span dst n, (s.vmm.lookup a).isSome) ∧ t = s ∧ es = zeros s n dst := by
  induction n generalizing dst es with
  | zero =>
    rw [zeroBytes, Job.ends_pure]
    exact ⟨fun h => ⟨nofun, h.2⟩, fun h => ⟨rfl, h.2⟩⟩
  | succ n ih =>
    rw [zeroBytes, span_succ, List.forall_mem_cons, zeros]
    by_cases hmapped : (s.vmm.lookup dst).isSome
    · simp only [(store_ends hmapped).ends_bind, ih]
      grind
    · constructor
      · intro h
        rw [Job.Ends, Job.bind_error (store_stops hmapped)] at h
        cases h
      simp [hmapped]

theorem stops_store (h : Job.Stops (store address value) s x) :
    x = .fault := by
  by_cases hmapped : (s.vmm.lookup address).isSome
  · exact absurd h (store_ends hmapped).not_stops
  · obtain ⟨t, es, h⟩ := h
    rw [store_stops hmapped] at h
    cases h
    rfl

theorem stops_copyBytes (h : Job.Stops (img.copyBytes n dst src) s x) : x = .fault := by
  induction n generalizing s dst src with
  | zero => exact absurd h Job.not_stops_pure
  | succ n ih =>
    rw [copyBytes, byte, (reading_ends _ _ _ _).stops_bind, Job.stops_bind] at h
    grind [stops_store]

theorem stops_zeroBytes (h : Job.Stops (zeroBytes n dst) s x) : x = .fault := by
  induction n generalizing s dst with
  | zero => exact absurd h Job.not_stops_pure
  | succ n ih =>
    grind [zeroBytes, Job.stops_bind, stops_store]

theorem always_store
    (h : p (.store address (s.physical address) value)) :
    Logged.Always p (store address value s) := by
  by_cases hmapped : (s.vmm.lookup address).isSome
  · rw [(store_ends hmapped).always, List.forall_mem_singleton]
    exact h
  · rw [store_stops hmapped]
    nofun

theorem always_copyBytes (hread : ∀ o ∈ span src n, p (.read o))
    (hstore : ∀ a ∈ span dst n, ∀ physical value, p (.store a physical value)) :
    Logged.Always p (img.copyBytes n dst src s) := by
  induction n generalizing s dst src with
  | zero => exact Job.always_pure _ _
  | succ n ih =>
    rw [span_succ, List.forall_mem_cons] at hread hstore
    rw [copyBytes, byte, (reading_ends _ _ _ _).always_bind, reads_one,
      List.forall_mem_singleton, Job.always_bind]
    grind [always_store]

theorem always_zeroBytes (hstore : ∀ a ∈ span dst n, ∀ physical value, p (.store a physical value)) :
    Logged.Always p (zeroBytes n dst s) := by
  induction n generalizing s dst with
  | zero => exact Job.always_pure _ _
  | succ n ih =>
    rw [span_succ, List.forall_mem_cons] at hstore
    rw [zeroBytes, Job.always_bind]
    grind [always_store]

-- What a copy that comes to its end has done.

theorem forall_copies : (∀ e ∈ copies s img n dst src, p e) ↔ (∀ o ∈ span src n, p (.read o)) ∧
    ∀ i < n, p (.store (dst + BitVec.ofNat 32 i) (s.physical (dst + BitVec.ofNat 32 i))
      (img.data (src + BitVec.ofNat 32 i))) := by
  induction n generalizing dst src with
  | zero => simp [copies]
  | succ n ih =>
    have hstep : ∀ (a : Word) (i : Nat),
        a + 1 + BitVec.ofNat 32 i = a + BitVec.ofNat 32 (i + 1) := by
      bv_omega
    simp only [copies, span_succ, List.forall_mem_cons, ih, hstep, Nat.forall_lt_succ_left]
    simp only [BitVec.add_zero]
    tauto

theorem forall_zeros : (∀ e ∈ zeros s n dst, p e) ↔
    ∀ i < n, p (.store (dst + BitVec.ofNat 32 i) (s.physical (dst + BitVec.ofNat 32 i)) 0) := by
  induction n generalizing dst with
  | zero => simp [zeros]
  | succ n ih =>
    have hstep : ∀ i : Nat, dst + 1 + BitVec.ofNat 32 i = dst + BitVec.ofNat 32 (i + 1) := by
      bv_omega
    simp only [zeros, List.forall_mem_cons, ih, hstep, Nat.forall_lt_succ_left, BitVec.add_zero]

end Bytes

section Segments

variable {ph highest : Word}

def fieldReads (ph : Word) : List Event :=
  reads (ph + 20) 4 ++ (reads (ph + 16) 4 ++ (reads (ph + 8) 4 ++ reads (ph + 4) 4))

variable {h : ProgramHeader}

theorem fillSegment_eq (hle : ¬h.memsz < h.filesz) : img.fillSegment h =
    img.copyBytes h.filesz.toNat h.vaddr h.offset >>= fun _ =>
      zeroBytes (h.memsz - h.filesz).toNat (h.vaddr + h.filesz) := by
  rw [fillSegment]
  by_cases hlt : h.filesz < h.memsz
  · rw [if_pos hlt]
  · have hzero : (h.memsz - h.filesz).toNat = 0 := by bv_omega
    rw [if_neg hlt, hzero]
    rfl

theorem ends_fillSegment (hle : ¬h.memsz < h.filesz) {r : Unit} :
    Job.Ends (img.fillSegment h) s r t es ↔
      (∀ a ∈ span h.vaddr h.memsz.toNat, (s.vmm.lookup a).isSome) ∧ t = s ∧
        es = copies s img h.filesz.toNat h.vaddr h.offset ++
          zeros s (h.memsz - h.filesz).toNat (h.vaddr + h.filesz) := by
  rw [fillSegment_eq hle, Job.ends_bind, ProgramHeader.span_memsz hle, List.forall_mem_append]
  simp only [ends_copyBytes, ends_zeroBytes]
  constructor
  · grind
  · rintro ⟨⟨hcopy, hzero⟩, rfl, rfl⟩
    exact ⟨(), _, _, _, ⟨hcopy, rfl, rfl⟩, ⟨hzero, rfl, rfl⟩, rfl⟩

theorem stops_fillSegment (hle : ¬h.memsz < h.filesz)
    (hstops : Job.Stops (img.fillSegment h) s x) : x = .fault := by
  grind [fillSegment_eq, Job.stops_bind, stops_copyBytes, stops_zeroBytes]

theorem always_fillSegment (hle : ¬h.memsz < h.filesz)
    (hread : ∀ o ∈ span h.offset h.filesz.toNat, p (.read o))
    (hstore : ∀ a ∈ span h.vaddr h.memsz.toNat, ∀ physical value, p (.store a physical value)) :
    Logged.Always p (img.fillSegment h s) := by
  rw [ProgramHeader.span_memsz hle, List.forall_mem_append] at hstore
  rw [fillSegment_eq hle, Job.always_bind]
  grind [always_copyBytes, always_zeroBytes]

theorem ends_placeSegment {r : Unit} : Job.Ends (img.placeSegment ph (img.headerAt ph)) s r t es ↔
    (img.headerAt ph).Passes img.size ∧
      ∃ ds, Job.Ends (img.mapPages ph (img.headerAt ph).pageCount (img.headerAt ph).pageStart)
          s () t ds ∧
        (∀ a ∈ span (img.headerAt ph).vaddr (img.headerAt ph).memsz.toNat, (t.vmm.lookup a).isSome) ∧
        es = fieldReads ph ++ (ds ++
          (copies t img (img.headerAt ph).filesz.toNat (img.headerAt ph).vaddr
              (img.headerAt ph).offset ++
            zeros t ((img.headerAt ph).memsz - (img.headerAt ph).filesz).toNat
              ((img.headerAt ph).vaddr + (img.headerAt ph).filesz))) := by
  simp only [placeSegment, word, (reading_ends _ _ _ _).ends_bind, ends_reject_bind]
  generalize hh : img.headerAt ph = h
  have hmemsz : img.wordAt (ph + 20) = h.memsz := by rw [← hh, headerAt]
  have hfilesz : img.wordAt (ph + 16) = h.filesz := by rw [← hh, headerAt]
  have hoffset : img.wordAt (ph + 4) = h.offset := by rw [← hh, headerAt]
  simp only [hmemsz, hfilesz, hoffset, ProgramHeader.Passes, Job.ends_bind]
  constructor
  · rintro ⟨_, ⟨_, ⟨hle, _, ⟨_, ⟨hfits, _, _, _, _, hmap, hfill, rfl⟩, rfl⟩, rfl⟩, rfl⟩, rfl⟩
    obtain ⟨hall, rfl, rfl⟩ := (ends_fillSegment hle).mp hfill
    refine ⟨⟨hle, hfits⟩, _, hmap, hall, ?_⟩
    simp only [fieldReads, List.append_assoc]
  · rintro ⟨⟨hle, hfits⟩, ds, hmap, hall, rfl⟩
    refine ⟨_, ⟨_, ⟨hle, _, ⟨_, ⟨hfits, (), t, ds, _, hmap,
      (ends_fillSegment hle).mpr ⟨hall, rfl, rfl⟩, rfl⟩, rfl⟩, rfl⟩, rfl⟩, ?_⟩
    simp only [fieldReads, List.append_assoc]

theorem stops_placeSegment (h : Job.Stops (img.placeSegment ph (img.headerAt ph)) s x) :
    ¬(img.headerAt ph).Passes img.size ∨ RanOut x := by
  simp only [placeSegment, word, (reading_ends _ _ _ _).stops_bind, stops_reject_bind] at h
  rw [Job.stops_bind] at h
  rcases h with ⟨hsize, -⟩ | ⟨hle, ⟨hfits, -⟩ | ⟨-, h | ⟨_, _, _, _, h⟩⟩⟩
  · exact .inl fun hpasses => hpasses.1 hsize
  · exact .inl fun hpasses => hpasses.2 hfits
  · exact .inr (stops_mapPages h)
  · exact .inr (.inl (stops_fillSegment hle h))

theorem always_placeSegment (hhead : ∀ o ∈ span ph 28, p (.read o))
    (hmap : (img.headerAt ph).Passes img.size → ∀ i < (img.headerAt ph).pageCount, ∀ frame,
      p (.map ((img.headerAt ph).pageStart + BitVec.ofNat 32 (4096 * i)) frame
        (img.headerAt ph).writable))
    (hread : (img.headerAt ph).Passes img.size →
      ∀ o ∈ span (img.headerAt ph).offset (img.headerAt ph).filesz.toNat, p (.read o))
    (hstore : (img.headerAt ph).Passes img.size →
      ∀ a ∈ span (img.headerAt ph).vaddr (img.headerAt ph).memsz.toNat, ∀ physical value,
        p (.store a physical value)) :
    Logged.Always p (img.placeSegment ph (img.headerAt ph) s) := by
  have hfield : ∀ k, k + 4 ≤ 28 → ∀ e ∈ reads (ph + BitVec.ofNat 32 k) 4, p e := by
    intro k hk
    rw [forall_reads]
    intro o ho
    obtain ⟨i, hi, rfl⟩ := mem_span.mp ho
    apply hhead
    refine mem_span.mpr ⟨k + i, by omega, ?_⟩
    bv_omega
  rw [placeSegment, word, (reading_ends _ _ _ _).always_bind, word,
    (reading_ends _ _ _ _).always_bind]
  refine ⟨hfield 20 (by decide), hfield 16 (by decide), always_reject_bind.mpr fun hle => ?_⟩
  rw [word, (reading_ends _ _ _ _).always_bind, word, (reading_ends _ _ _ _).always_bind]
  refine ⟨hfield 8 (by decide), hfield 4 (by decide), always_reject_bind.mpr fun hfits => ?_⟩
  have hpasses : (img.headerAt ph).Passes img.size := ⟨hle, hfits⟩
  rw [Job.always_bind]
  refine ⟨always_mapPages (forall_reads.mp (hfield 24 (by decide))) (hmap hpasses), ?_⟩
  intro _ _ _ _
  exact always_fillSegment hle (hread hpasses) (hstore hpasses)

theorem ends_loadSegment {r : Word} : Job.Ends (img.loadSegment ph highest) s r t es ↔
    (img.headerAt ph).type ≠ ptLoad ∧ r = highest ∧ t = s ∧ es = reads ph 4 ∨
    (img.headerAt ph).type = ptLoad ∧
      r = (if highest < (img.headerAt ph).segEnd then (img.headerAt ph).segEnd else highest) ∧
      ∃ ds, Job.Ends (img.placeSegment ph (img.headerAt ph)) s () t ds ∧ es = reads ph 4 ++ ds := by
  have htype : (img.headerAt ph).type = img.wordAt ph := rfl
  rw [loadSegment, word, (reading_ends _ _ _ _).ends_bind, htype]
  by_cases hload : img.wordAt ph = ptLoad
  · simp only [hload, ne_eq, not_true_eq_false, if_false, false_and, false_or, true_and,
      Job.ends_bind, Job.ends_pure]
    constructor
    · grind
    grind
  · simp only [hload, ne_eq, not_false_eq_true, if_true, true_and, false_and, or_false,
      Job.ends_pure]
    grind

theorem stops_loadSegment (h : Job.Stops (img.loadSegment ph highest) s x) :
    (img.headerAt ph).type = ptLoad ∧ ¬(img.headerAt ph).Passes img.size ∨ RanOut x := by
  rw [loadSegment, word, (reading_ends _ _ _ _).stops_bind] at h
  by_cases hload : img.wordAt ph = ptLoad
  · rw [if_neg (not_not.mpr hload), Job.stops_bind] at h
    obtain h | ⟨_, _, _, _, h⟩ := h
    · obtain hpasses | hran := stops_placeSegment h
      · exact .inl ⟨hload, hpasses⟩
      · exact .inr hran
    · exact absurd h Job.not_stops_pure
  · rw [if_pos hload] at h
    exact absurd h Job.not_stops_pure

theorem always_loadSegment (hhead : ∀ o ∈ span ph 28, p (.read o))
    (hplace : (img.headerAt ph).type = ptLoad →
      Logged.Always p (img.placeSegment ph (img.headerAt ph) s)) :
    Logged.Always p (img.loadSegment ph highest s) := by
  rw [loadSegment, word, (reading_ends _ _ _ _).always_bind, forall_reads]
  constructor
  · intro o ho
    obtain ⟨i, hi, rfl⟩ := mem_span.mp ho
    exact hhead _ (mem_span.mpr ⟨i, by omega, rfl⟩)
  by_cases hload : img.wordAt ph = ptLoad
  · rw [if_neg (not_not.mpr hload), Job.always_bind]
    exact ⟨hplace hload, fun _ _ _ _ => Job.always_pure _ _⟩
  · rw [if_pos hload]
    exact Job.always_pure _ _

end Segments

end UserlandImage

end Wirth.Kernel.Loader

import Wirth.Kernel.Loader.Rules

namespace Wirth.Kernel.Loader.UserlandImage

open Wirth.Lib Wirth.Lib.X86 Wirth.Kernel.Mm

variable {img : UserlandImage} {s t : Mm} {es : List Event} {p : Event → Prop} {x : Halt}

section Magic

def Matches (img : UserlandImage) : List UInt8 → Word → Prop
  | [], _ => True
  | c :: rest, offset => img.data offset = c ∧ Matches img rest (offset + 1)

theorem matchesFrom_ends (img : UserlandImage) (cs : List UInt8) (offset : Word) (s : Mm) :
    ∃ r es, Job.Ends (img.matchesFrom cs offset) s r s es ∧ (r = true ↔ img.Matches cs offset) ∧
      ∀ e ∈ es, ∃ o ∈ span offset cs.length, e = .read o := by
  induction cs generalizing offset with
  | nil => exact ⟨true, [], rfl, iff_of_true rfl trivial, nofun⟩
  | cons c rest ih =>
    obtain ⟨r, es, hends, hr, hes⟩ := ih (offset + 1)
    have hbyte := reading_ends offset 1 (img.data offset) s
    rw [reads_one] at hbyte
    by_cases hc : img.data offset = c
    · refine ⟨r, .read offset :: es, ?_, ?_, ?_⟩
      · rw [matchesFrom, byte, hbyte.ends_bind, if_pos hc]
        exact ⟨es, hends, rfl⟩
      · rw [Matches, hr]
        exact (and_iff_right hc).symm
      · rw [List.length_cons, span_succ, List.forall_mem_cons]
        grind
    · refine ⟨false, [.read offset], ?_, ?_, ?_⟩
      · rw [matchesFrom, byte, hbyte.ends_bind, if_neg hc]
        exact ⟨[], rfl, rfl⟩
      · simp [Matches, hc]
      · rw [List.length_cons, span_succ, List.forall_mem_singleton]
        exact ⟨offset, List.mem_cons_self, rfl⟩

end Magic

-- The header that the loader goes on with. The last check is in 32 bits.
structure Accepted (img : UserlandImage) : Prop where
  large : ¬img.size < sizeofELFHeader
  magic : img.Matches [0x7F, chr 'E', chr 'L', chr 'F'] 0
  machine : img.halfAt 18 = em386
  entrySize : img.phentsize = sizeofProgramHeader
  nonempty : img.phnum ≠ 0
  table : ¬img.size < img.phoff + img.phnum * img.phentsize

theorem forall_headerField {offset : Word} {count : Nat} (h : offset.toNat + count ≤ 52)
    (hread : ∀ o : Word, o.toNat < 52 → p (.read o)) : ∀ e ∈ reads offset count, p e := by
  rw [forall_reads]
  intro o ho
  exact hread o (between_span (Nat.zero_le _) h (by decide) o ho).2

theorem accepted_of_ends {r : Unit} (h : Job.Ends img.readHeader s r t es) :
    img.Accepted ∧ t = s := by
  obtain ⟨elf, ds, hmagic, helf, -⟩ := matchesFrom_ends img [0x7F, chr 'E', chr 'L', chr 'F'] 0 s
  rw [readHeader, ends_reject_bind, isElf, hmagic.ends_bind] at h
  obtain ⟨hlarge, ds', h, rfl⟩ := h
  simp only [ends_reject_bind, half, word, (reading_ends _ _ _ _).ends_bind, ends_reject] at h
  obtain ⟨hfound, _, ⟨hmachine, _, ⟨hsize, _, ⟨hnum, _, ⟨_, ⟨htable, rfl, rfl⟩, rfl⟩, rfl⟩, rfl⟩,
    rfl⟩, rfl⟩ := h
  exact ⟨⟨hlarge, helf.mp (Bool.eq_true_of_not_eq_false hfound), not_not.mp hmachine,
    not_not.mp hsize, hnum, htable⟩, rfl⟩

theorem Accepted.ends_readHeader (h : img.Accepted) (s : Mm) :
    ∃ es, Job.Ends img.readHeader s () s es ∧
      ∀ e ∈ es, ∃ o : Word, o.toNat < 52 ∧ e = .read o := by
  obtain ⟨elf, ds, hmagic, helf, hds⟩ := matchesFrom_ends img [0x7F, chr 'E', chr 'L', chr 'F'] 0 s
  have hfield : ∀ {offset : Word} {count : Nat}, offset.toNat + count ≤ 52 →
      ∀ e ∈ reads offset count, ∃ o : Word, o.toNat < 52 ∧ e = .read o :=
    fun hle => forall_headerField hle fun o ho => ⟨o, ho, rfl⟩
  refine ⟨ds ++ (reads 18 2 ++ (reads 42 2 ++ (reads 44 2 ++ (reads 24 4 ++ (reads 28 4 ++ []))))),
    ?_, ?_⟩
  · rw [readHeader, ends_reject_bind, isElf, hmagic.ends_bind]
    simp only [ends_reject_bind, half, word, (reading_ends _ _ _ _).ends_bind, ends_reject]
    have hfound : ¬elf = false := by
      rw [helf.mpr h.magic]
      decide
    exact ⟨h.large, _, ⟨hfound, _, ⟨not_not.mpr h.machine, _, ⟨not_not.mpr h.entrySize, _,
      ⟨h.nonempty, _, ⟨_, ⟨h.table, trivial, rfl⟩, rfl⟩, rfl⟩, rfl⟩, rfl⟩, rfl⟩, rfl⟩
  · simp only [List.forall_mem_append]
    refine ⟨?_, hfield (by decide), hfield (by decide), hfield (by decide), hfield (by decide),
      hfield (by decide), List.forall_mem_nil _⟩
    intro e he
    obtain ⟨o, ho, rfl⟩ := hds e he
    exact ⟨o, lt_trans (between_span (Nat.zero_le _) (le_refl _) (by decide) o ho).2 (by decide), rfl⟩

theorem reads_of_readHeader {r : Unit} (h : Job.Ends img.readHeader s r t es) :
    ∀ e ∈ es, ∃ o : Word, o.toNat < 52 ∧ e = .read o := by
  obtain ⟨ds, hends, hds⟩ := (accepted_of_ends h).1.ends_readHeader s
  obtain ⟨-, -, rfl⟩ := hends.unique h
  exact hds

theorem always_readHeader (hread : ¬img.size < sizeofELFHeader →
    ∀ o : Word, o.toNat < 52 → p (.read o)) (s : Mm) : Logged.Always p (img.readHeader s) := by
  obtain ⟨elf, ds, hmagic, -, hds⟩ := matchesFrom_ends img [0x7F, chr 'E', chr 'L', chr 'F'] 0 s
  refine always_reject_bind.mpr fun hlarge => ?_
  have hfield : ∀ {offset : Word} {count : Nat}, offset.toNat + count ≤ 52 →
      ∀ e ∈ reads offset count, p e := fun hle => forall_headerField hle (hread hlarge)
  rw [isElf, hmagic.always_bind]
  constructor
  · intro e he
    obtain ⟨o, ho, rfl⟩ := hds e he
    exact hread hlarge o
      (lt_trans (between_span (Nat.zero_le _) (le_refl _) (by decide) o ho).2 (by decide))
  refine always_reject_bind.mpr fun _ => ?_
  rw [half, (reading_ends _ _ _ _).always_bind]
  refine ⟨hfield (by decide), always_reject_bind.mpr fun _ => ?_⟩
  rw [half, (reading_ends _ _ _ _).always_bind]
  refine ⟨hfield (by decide), always_reject_bind.mpr fun _ => ?_⟩
  rw [half, (reading_ends _ _ _ _).always_bind]
  refine ⟨hfield (by decide), always_reject_bind.mpr fun _ => ?_⟩
  rw [word, (reading_ends _ _ _ _).always_bind, word, (reading_ends _ _ _ _).always_bind]
  grind [always_reject]

section Stack

variable {highest : Word}

theorem ends_mapStack {r : Word} : Job.Ends (mapStack highest) s r t es ↔
    highest ≠ 0 ∧ s.hasRoom (stackPage highest) true ∧ r = stackPage highest + 0x1000 - 16 ∧
      t = s.grown (stackPage highest) true ∧ es = [.map (stackPage highest) s.nextFrame true] := by
  rw [mapStack, ends_reject_bind, (allocFrame_ends s).ends_bind]
  simp only [ends_reject_bind, (mapPage_ends _ _ _ _).ends_bind, Job.ends_pure, List.nil_append,
    Bool.not_eq_false]
  constructor
  · rintro ⟨hhigh, _, ⟨hphys, _, ⟨hok, rfl, rfl, rfl⟩, rfl⟩, rfl⟩
    rw [if_pos hok]
    exact ⟨hhigh, ⟨hphys, hok⟩, rfl, rfl, rfl⟩
  · rintro ⟨hhigh, ⟨hphys, hok⟩, rfl, rfl, rfl⟩
    refine ⟨hhigh, _, ⟨hphys, _, ⟨hok, rfl, rfl, rfl⟩, rfl⟩, ?_⟩
    rw [if_pos hok]
    rfl

theorem always_mapStack (hmap : highest ≠ 0 → ∀ frame, p (.map (stackPage highest) frame true))
    (s : Mm) : Logged.Always p (mapStack highest s) := by
  refine always_reject_bind.mpr fun hhigh => ?_
  rw [(allocFrame_ends s).always_bind]
  refine ⟨nofun, always_reject_bind.mpr fun _ => ?_⟩
  rw [(mapPage_ends _ _ _ _).always_bind]
  refine ⟨?_, always_reject_bind.mpr fun _ => Job.always_pure _ _⟩
  grind

end Stack

section Segments

def segmentsFrom (img : UserlandImage) : Nat → Word → List ProgramHeader
  | 0, _ => []
  | left + 1, ph =>
      if (img.headerAt ph).type = ptLoad then
        img.headerAt ph :: segmentsFrom img left (ph + sizeofProgramHeader)
      else segmentsFrom img left (ph + sizeofProgramHeader)

def segments (img : UserlandImage) : List ProgramHeader :=
  img.segmentsFrom img.phnum.toNat img.phoff

def raise (highest : Word) (h : ProgramHeader) : Word :=
  if highest < h.segEnd then h.segEnd else highest

def highest (img : UserlandImage) : Word := img.segments.foldl raise 0

theorem le_raise (a : Word) (h : ProgramHeader) :
    a.toNat ≤ (raise a h).toNat ∧ h.segEnd.toNat ≤ (raise a h).toNat := by
  rw [raise]
  split
  · bv_omega
  · bv_omega

theorem le_foldl_raise (l : List ProgramHeader) (a : Word) :
    a.toNat ≤ (l.foldl raise a).toNat ∧ ∀ h ∈ l, h.segEnd.toNat ≤ (l.foldl raise a).toNat := by
  induction l generalizing a with
  | nil => exact ⟨le_refl _, nofun⟩
  | cons k rest ih =>
    obtain ⟨hstart, hrest⟩ := ih (raise a k)
    obtain ⟨ha, hk⟩ := le_raise a k
    grind

theorem segEnd_le_highest {h : ProgramHeader} (hmem : h ∈ img.segments) :
    h.segEnd.toNat ≤ img.highest.toNat := (le_foldl_raise img.segments 0).2 h hmem

end Segments

end Wirth.Kernel.Loader.UserlandImage

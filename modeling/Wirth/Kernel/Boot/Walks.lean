import Wirth.Kernel.Boot.Acpi
import Wirth.Lib.Walk

namespace Wirth.Kernel.Boot

open Wirth.Lib Wirth.Lib.Walk Wirth.Lib.Job

section Primitives

variable {w : Nat} {S V β : Type} {m : Memory} {p : BitVec w} {s t : S} {b : β} {es : List Read}

theorem ends_readU32_bind {f : Nat → Scan S β} : Ends (readU32 m p >>= f) s b t es ↔
    ∃ ds, Ends (f (m.read32 p.toNat)) s b t ds ∧ es = ⟨p.toNat, 4⟩ :: ds := by
  have hread : Ends (readU32 m p : Scan S Nat) s (m.read32 p.toNat) s [⟨p.toNat, 4⟩] := rfl
  exact hread.ends_bind

theorem ends_readU64_bind {f : Nat → Scan S β} : Ends (readU64 m p >>= f) s b t es ↔
    ∃ ds, Ends (f (m.read32 p.toNat + 2 ^ 32 * m.read32 (p.toNat + 4))) s b t ds ∧ es = ⟨p.toNat, 8⟩ :: ds := by
  have hread : Ends (readU64 m p : Scan S Nat) s _ s [⟨p.toNat, 8⟩] := rfl
  exact hread.ends_bind

theorem ends_visit_bind {visitor : V → S → S} {view : V} {f : Unit → Scan S β} :
    Ends (visit visitor view >>= f) s b t es ↔ Ends (f ()) (visitor view s) b t es := by
  have hvisit : Ends (visit visitor view) s () (visitor view s) ([] : List Read) := rfl
  rw [hvisit.ends_bind]
  simp only [List.nil_append, exists_eq_right']

end Primitives

section Entries

variable {w : Nat} {S : Type} (m : Memory)

def entrySize (tag : BitVec w) : Nat := m.read32 (tag + 8).toNat

def entryNext (tag entriesEnd x : BitVec w) : Option (BitVec w) :=
  if x + uintptr w (entrySize m tag) ≤ entriesEnd ∧ sizeofMemoryMapEntry ≤ entrySize m tag then
    some (x + uintptr w (entrySize m tag))
  else none

def entryView (x : BitVec w) : Mm.MemoryMapEntryView where
  baseAddr := UInt64.ofNat (m.read32 x.toNat + 2 ^ 32 * m.read32 (x.toNat + 4))
  length := UInt64.ofNat (m.read32 (x + 8).toNat + 2 ^ 32 * m.read32 ((x + 8).toNat + 4))
  type := UInt32.ofNat (m.read32 (x + 16).toNat)

def entryReads (x : BitVec w) : List Read := [⟨x.toNat, 8⟩, ⟨(x + 8).toNat, 8⟩, ⟨(x + 16).toNat, 4⟩]

variable {m} {visitor : Mm.MemoryMapEntryView → S → S} {tag entriesEnd x : BitVec w} {rounds : Nat}
  {s t : S} {r : Unit} {es : List Read}

theorem ends_entryLoop : Ends (entryLoop m visitor tag entriesEnd rounds x) s r t es ↔
    ∃ l z, Visits (entryNext m tag entriesEnd) x l z ∧ l.length < rounds ∧
      t = (l.map (entryView m)).foldl (fun s view => visitor view s) s ∧
      es = l.flatMap (fun y => ⟨(tag + 8).toNat, 4⟩ :: entryReads y) ++ [⟨(tag + 8).toNat, 4⟩] := by
  induction rounds generalizing x s es with
  | zero =>
    refine ⟨fun h => absurd h not_ends_stop, ?_⟩
    omega
  | succ rounds ih =>
    rw [entryLoop, ends_readU32_bind]
    by_cases htest : x + uintptr w (entrySize m tag) ≤ entriesEnd ∧ sizeofMemoryMapEntry ≤ entrySize m tag
    · have hnext : entryNext m tag entriesEnd x = some (x + uintptr w (entrySize m tag)) := if_pos htest
      rw [entrySize] at htest
      simp only [if_pos htest, ends_readU64_bind, ends_readU32_bind, ends_visit_bind]
      constructor
      · rintro ⟨ds, ⟨ds1, ⟨ds2, ⟨ds3, hends, rfl⟩, rfl⟩, rfl⟩, rfl⟩
        obtain ⟨l, z, hvisits, hlt, rfl, rfl⟩ := ih.mp hends
        exact ⟨x :: l, z, .step hnext hvisits, Nat.succ_lt_succ hlt, rfl, rfl⟩
      · rintro ⟨l, z, hvisits, hlt, rfl, rfl⟩
        cases hvisits with
        | last hnone => cases hnone.symm.trans hnext
        | step hsome hrest =>
          cases hsome.symm.trans hnext
          exact ⟨_, ⟨_, ⟨_, ⟨_, ih.mpr ⟨_, z, hrest, Nat.lt_of_succ_lt_succ hlt, rfl, rfl⟩, rfl⟩, rfl⟩, rfl⟩, rfl⟩
    · have hnext : entryNext m tag entriesEnd x = none := if_neg htest
      rw [entrySize] at htest
      simp only [if_neg htest, ends_pure]
      constructor
      · rintro ⟨ds, ⟨-, rfl, rfl⟩, rfl⟩
        exact ⟨[], x, .last hnext, Nat.succ_pos _, rfl, rfl⟩
      · rintro ⟨l, z, hvisits, -, rfl, rfl⟩
        cases hvisits with
        | last _ => exact ⟨[], ⟨trivial, rfl, rfl⟩, rfl⟩
        | step hsome _ => cases hsome.symm.trans hnext

end Entries

section Tags

variable {w : Nat} {S : Type} (m : Memory)

def tagType (c : BitVec w) : Nat := m.read32 c.toNat

def tagSize (c : BitVec w) : Nat := m.read32 (c + 4).toNat

def tagNext (infoEnd c : BitVec w) : Option (BitVec w) :=
  if c + uintptr w sizeofTagHeader ≤ infoEnd ∧ tagType m c ≠ kTagTypeEnd then
    some (align8 (c + uintptr w (tagSize m c)))
  else none

def blockEnd (info : BitVec w) : BitVec w := info + uintptr w (m.read32 info.toNat)

abbrev blockNext (info : BitVec w) : BitVec w → Option (BitVec w) := tagNext m (blockEnd m info)

-- At the last place the loop looks at the type, unless it is past the end.
def lastReads (infoEnd z : BitVec w) : List Read :=
  if z + uintptr w sizeofTagHeader ≤ infoEnd then [⟨z.toNat, 4⟩] else []

inductive Threads (H : BitVec w → S → S → List Read → Prop) : List (BitVec w) → S → S → List Read → Prop where
  | nil {s : S} : Threads H [] s s []
  | cons {c : BitVec w} {l : List (BitVec w)} {s mid t : S} {ds es : List Read} (h : H c s mid ds)
      (rest : Threads H l mid t es) : Threads H (c :: l) s t (⟨c.toNat, 4⟩ :: ⟨(c + 4).toNat, 4⟩ :: (ds ++ es))

variable {m} {onTag : BitVec w → Nat → Nat → Bool → Scan S Verdict} {infoEnd c : BitVec w} {rounds : Nat}
  {found r : Bool} {s t : S} {es : List Read} {such : BitVec w → Bool}
  {H : BitVec w → S → S → List Read → Prop}

theorem exists_visits_of_none (hnext : tagNext m infoEnd c = none) :
    (∃ l z ds, Visits (tagNext m infoEnd) c l z ∧ l.length < rounds + 1 ∧ r = (found || l.any such) ∧
        Threads H l s t ds ∧ es = ds ++ lastReads infoEnd z) ↔
      r = found ∧ t = s ∧ es = lastReads infoEnd c := by
  constructor
  · rintro ⟨l, z, ds, hvisits, -, rfl, hthreads, rfl⟩
    cases hvisits with
    | step hsome _ => cases hsome.symm.trans hnext
    | last _ =>
      cases hthreads
      exact ⟨Bool.or_false _, rfl, rfl⟩
  · rintro ⟨rfl, rfl, rfl⟩
    exact ⟨[], c, [], .last hnext, Nat.succ_pos _, (Bool.or_false _).symm, .nil, rfl⟩

theorem ends_tagLoop (honTag : ∀ a, Reaches (tagNext m infoEnd) c a → tagNext m infoEnd a ≠ none →
      ∀ found s r t es, Ends (onTag a (tagType m a) (tagSize m a) found) s r t es ↔
        r = .goOn (found || such a) ∧ H a s t es) :
    Ends (tagLoop m infoEnd onTag rounds c found) s r t es ↔
      ∃ l z ds, Visits (tagNext m infoEnd) c l z ∧ l.length < rounds ∧ r = (found || l.any such) ∧
        Threads H l s t ds ∧ es = ds ++ lastReads infoEnd z := by
  induction rounds generalizing c found s es with
  | zero =>
    refine ⟨fun h => absurd h not_ends_stop, ?_⟩
    omega
  | succ rounds ih =>
    rw [tagLoop]
    by_cases hinside : c + uintptr w sizeofTagHeader ≤ infoEnd
    case neg =>
      have hnext : tagNext m infoEnd c = none := if_neg fun h => hinside h.1
      rw [if_neg hinside, ends_pure, exists_visits_of_none hnext, lastReads, if_neg hinside]
    rw [if_pos hinside, ends_readU32_bind]
    by_cases hend : m.read32 c.toNat = kTagTypeEnd
    · have hnext : tagNext m infoEnd c = none := if_neg fun h => h.2 hend
      rw [exists_visits_of_none hnext, lastReads, if_pos hinside]
      simp only [if_pos hend, ends_pure]
      grind
    have hnext : tagNext m infoEnd c = some (align8 (c + uintptr w (tagSize m c))) :=
      if_pos ⟨hinside, hend⟩
    have hrest := @ih (align8 (c + uintptr w (tagSize m c)))
    have hstep := honTag c .refl (by rw [hnext]; exact Option.some_ne_none _)
    simp only [if_neg hend, ends_readU32_bind]
    simp only [Job.ends_bind]
    constructor
    · rintro ⟨_, ⟨_, ⟨verdict, mid, ds, ds', htag, hends, rfl⟩, rfl⟩, rfl⟩
      obtain ⟨rfl, hH⟩ := (hstep _ _ _ _ _).mp htag
      obtain ⟨l, z, ds'', hvisits, hlt, rfl, hthreads, rfl⟩ :=
        (hrest fun a ha => honTag a (ha.head hnext)).mp hends
      refine ⟨c :: l, z, _, .step hnext hvisits, Nat.succ_lt_succ hlt, ?_, .cons hH hthreads, ?_⟩
      · rw [List.any_cons, Bool.or_assoc]
      simp
    · rintro ⟨l, z, ds, hvisits, hlt, rfl, hthreads, rfl⟩
      cases hvisits with
      | last hnone => cases hnone.symm.trans hnext
      | @step _ _ _ l hsome hvisits =>
        cases hsome.symm.trans hnext
        cases hthreads with
        | @cons _ _ _ mid _ ds es hH hthreads =>
          refine ⟨_, ⟨_, ⟨.goOn (found || such c), mid, ds, es ++ lastReads infoEnd z,
            (hstep _ _ _ _ _).mpr ⟨rfl, hH⟩, ?_, rfl⟩, rfl⟩, ?_⟩
          · refine (hrest fun a ha => honTag a (ha.head hnext)).mpr
              ⟨l, z, es, hvisits, Nat.lt_of_succ_lt_succ hlt, ?_, hthreads, rfl⟩
            rw [List.any_cons, Bool.or_assoc]
          simp

theorem ends_walkTags {addr : UInt32} {info : BitVec w} (haddr : uintptr w addr.toNat = info) (hinfo : info ≠ 0)
    (honTag : ∀ a, Reaches (blockNext m info) (info + 8) a → blockNext m info a ≠ none →
      ∀ found s r t es, Ends (onTag a (tagType m a) (tagSize m a) found) s r t es ↔
        r = .goOn (found || such a) ∧ H a s t es) :
    Ends (walkTags m onTag rounds addr) s r t es ↔
      ∃ l z ds, Visits (blockNext m info) (info + 8) l z ∧ l.length < rounds ∧ r = l.any such ∧
        Threads H l s t ds ∧ es = ⟨info.toNat, 4⟩ :: (ds ++ lastReads (blockEnd m info) z) := by
  rw [walkTags, haddr, if_neg hinfo, ends_readU32_bind]
  constructor
  · rintro ⟨es', hends, rfl⟩
    obtain ⟨l, z, ds, hvisits, hlt, rfl, hthreads, rfl⟩ := (ends_tagLoop honTag).mp hends
    grind
  · rintro ⟨l, z, ds, hvisits, hlt, rfl, hthreads, rfl⟩
    exact ⟨_, (ends_tagLoop honTag).mpr ⟨l, z, ds, hvisits, hlt, rfl, hthreads, rfl⟩, rfl⟩

end Tags

section Handlers

variable {w : Nat} {S : Type} (m : Memory)

def IsMemoryMap (c : BitVec w) : Prop := tagType m c = kTagTypeMemoryMap ∧ sizeofMemoryMapTag ≤ tagSize m c

instance decidableIsMemoryMap (c : BitVec w) : Decidable (IsMemoryMap m c) := inferInstanceAs (Decidable (_ ∧ _))

def IsModule (c : BitVec w) : Prop := tagType m c = kTagTypeModule ∧ sizeofModuleTag ≤ tagSize m c

instance decidableIsModule (c : BitVec w) : Decidable (IsModule m c) := inferInstanceAs (Decidable (_ ∧ _))

abbrev mapNext (c : BitVec w) : BitVec w → Option (BitVec w) := entryNext m c (c + uintptr w (tagSize m c))

def mapReads (c : BitVec w) (l : List (BitVec w)) : List Read :=
  l.flatMap (fun y => ⟨(c + 8).toNat, 4⟩ :: entryReads y) ++ [⟨(c + 8).toNat, 4⟩]

def MapHandled (visitor : Mm.MemoryMapEntryView → S → S) (rounds : Nat) (c : BitVec w) (s t : S)
    (es : List Read) : Prop :=
  if IsMemoryMap m c then
    ∃ l z, Visits (mapNext m c) (c + uintptr w sizeofMemoryMapTag) l z ∧ l.length < rounds ∧
      t = (l.map (entryView m)).foldl (fun s view => visitor view s) s ∧ es = mapReads c l
  else t = s ∧ es = []

def moduleView (c : BitVec w) : ModuleView w :=
  ⟨m.read32 (c + 8).toNat, m.read32 (c + 12).toNat, c + uintptr w sizeofModuleTag⟩

def ModuleHandled (visitor : ModuleView w → S → S) (c : BitVec w) (s t : S) (es : List Read) : Prop :=
  if IsModule m c then t = visitor (moduleView m c) s ∧ es = [⟨(c + 8).toNat, 4⟩, ⟨(c + 12).toNat, 4⟩]
  else t = s ∧ es = []

variable {m} {c : BitVec w} {rounds : Nat} {found : Bool} {r : Verdict} {es : List Read}

theorem ends_memoryMapTag {visitor : Mm.MemoryMapEntryView → S → S} {s t : S} :
    Ends (memoryMapTag m visitor rounds c (tagType m c) (tagSize m c) found) s r t es ↔
      r = .goOn (found || decide (IsMemoryMap m c)) ∧ MapHandled m visitor rounds c s t es := by
  rw [memoryMapTag, MapHandled]
  by_cases htest : tagType m c = kTagTypeMemoryMap ∧ sizeofMemoryMapTag ≤ tagSize m c
  · have hmap : IsMemoryMap m c := htest
    rw [if_pos htest, if_pos hmap, decide_eq_true hmap, Bool.or_true, Job.ends_bind]
    constructor
    · rintro ⟨_, mid, ds, ds', hloop, hends, rfl⟩
      obtain ⟨rfl, rfl, rfl⟩ := ends_pure.mp hends
      obtain ⟨l, z, hvisits, hlt, rfl, rfl⟩ := ends_entryLoop.mp hloop
      exact ⟨rfl, l, z, hvisits, hlt, rfl, List.append_nil _⟩
    · rintro ⟨rfl, l, z, hvisits, hlt, rfl, rfl⟩
      exact ⟨(), _, _, [], ends_entryLoop.mpr ⟨l, z, hvisits, hlt, rfl, rfl⟩, ends_pure.mpr ⟨rfl, rfl, rfl⟩,
        (List.append_nil _).symm⟩
  simp [IsMemoryMap, ends_pure, htest]

theorem ends_moduleTag {visitor : ModuleView w → S → S} {s t : S} :
    Ends (moduleTag m visitor c (tagType m c) (tagSize m c) found) s r t es ↔
      r = .goOn (found || decide (IsModule m c)) ∧ ModuleHandled m visitor c s t es := by
  rw [moduleTag, ModuleHandled]
  by_cases htest : tagType m c = kTagTypeModule ∧ sizeofModuleTag ≤ tagSize m c
  · have hmodule : IsModule m c := htest
    rw [if_pos htest, if_pos hmodule, decide_eq_true hmodule, Bool.or_true]
    simp only [ends_readU32_bind, ends_visit_bind, ends_pure]
    constructor
    · rintro ⟨_, ⟨_, ⟨rfl, rfl, rfl⟩, rfl⟩, rfl⟩
      exact ⟨rfl, rfl, rfl⟩
    · rintro ⟨rfl, rfl, rfl⟩
      exact ⟨_, ⟨[], ⟨rfl, rfl, rfl⟩, rfl⟩, rfl⟩
  simp [IsModule, ends_pure, htest]

theorem ends_acpiTag {s t : AcpiInfo} (h : ¬IsAcpiTag (tagType m c) (tagSize m c)) :
    Ends (acpiTag m rounds c (tagType m c) (tagSize m c) found) s r t es ↔
      r = .goOn (found || false) ∧ t = s ∧ es = [] := by
  rw [acpiTag, if_neg h, Bool.or_false, ends_pure]

end Handlers

end Wirth.Kernel.Boot

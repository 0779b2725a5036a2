import Mathlib.Data.BitVec
import Wirth.Kernel.Boot.Walks

namespace Wirth.Kernel.Boot

open Wirth.Lib Wirth.Lib.Walk Wirth.Lib.Job

section Notions

variable {w : Nat} {S : Type}

-- With enough rounds for its loops the function returns, and always in the same way.
def Finishes (walker : Nat → Scan S Bool) (s : S) (r : Bool) (t : S) (es : List Read) : Prop :=
  ∃ n, ∀ rounds, n ≤ rounds → Ends (walker rounds) s r t es

def InBlock (m : Memory) (info : BitVec w) (read : Read) : Prop :=
  info.toNat ≤ read.address ∧ read.address + read.length ≤ info.toNat + m.read32 info.toNat

def Safe (m : Memory) (info : BitVec w) (walker : Nat → Scan S Bool) (s : S) : Prop :=
  ∃ r t es, Finishes walker s r t es ∧ ∀ e ∈ es, InBlock m info e

-- The loop over the tags never comes back to a tag, and all that it looks at is part of the block: the
-- type at each place before the end, and the rest of each tag that is not the end tag.
structure Orderly (m : Memory) (info : BitVec w) (contents : BitVec w → Prop) : Prop where
  total : InBlock m info ⟨info.toNat, 4⟩
  ends : ∀ c, Reaches (blockNext m info) (info + 8) c → ¬Returns (blockNext m info) c
  type : ∀ c, Reaches (blockNext m info) (info + 8) c →
    c + uintptr w sizeofTagHeader ≤ blockEnd m info → InBlock m info ⟨c.toNat, 4⟩
  rest : ∀ c, Reaches (blockNext m info) (info + 8) c → blockNext m info c ≠ none →
    InBlock m info ⟨(c + 4).toNat, 4⟩ ∧ contents c

end Notions

section Threads

variable {w : Nat} {S : Type} {H : Nat → BitVec w → S → S → List Read → Prop} {inside : Read → Prop}
  {contents : BitVec w → Prop} {l : List (BitVec w)} {s t : S} {es : List Read}

theorem finite_bitVec (w : Nat) : Finite (BitVec w) := .of_injective BitVec.toFin BitVec.toFin_injective

theorem Threads.part {n : Nat} (h : Threads (H n) l s t es)
    (hout : ∀ n a s t es, H n a s t es → (∀ e ∈ es, inside e) → contents a) (hes : ∀ e ∈ es, inside e)
    {c : BitVec w} (hc : c ∈ l) : inside ⟨c.toNat, 4⟩ ∧ inside ⟨(c + 4).toNat, 4⟩ ∧ contents c := by
  induction h with
  | nil => cases hc
  | @cons a l s mid t ds es hH hrest ih =>
    grind

theorem exists_threads (hmono : ∀ n n' a s t es, n ≤ n' → H n a s t es → H n' a s t es)
    (hin : ∀ a, contents a → ∀ s, ∃ n t es, H n a s t es ∧ ∀ e ∈ es, inside e)
    (hl : ∀ c ∈ l, inside ⟨c.toNat, 4⟩ ∧ inside ⟨(c + 4).toNat, 4⟩ ∧ contents c) (s : S) :
    ∃ n t es, (∀ n', n ≤ n' → Threads (H n') l s t es) ∧ ∀ e ∈ es, inside e := by
  induction l generalizing s with
  | nil => exact ⟨0, s, [], fun _ _ => .nil, fun e he => absurd he List.not_mem_nil⟩
  | cons c l ih =>
    obtain ⟨⟨htype, hsize, hcontents⟩, hrest⟩ := List.forall_mem_cons.mp hl
    obtain ⟨n, mid, ds, hH, hds⟩ := hin c hcontents s
    obtain ⟨n', t, es, hthreads, hes⟩ := ih hrest mid
    refine ⟨max n n', t, _, fun k hk => .cons (hmono _ _ _ _ _ _ (le_of_max_le_left hk) hH)
      (hthreads k (le_of_max_le_right hk)), ?_⟩
    grind

end Threads

section Walkers

variable {w : Nat} {S : Type} {m : Memory} {addr : UInt32} {info : BitVec w}

theorem safe_walkTags_iff {onTag : Nat → BitVec w → Nat → Nat → Bool → Scan S Verdict}
    {H : Nat → BitVec w → S → S → List Read → Prop} {such : BitVec w → Bool} {contents : BitVec w → Prop}
    (haddr : uintptr w addr.toNat = info) (hinfo : info ≠ 0)
    (honTag : ∀ rounds a, Reaches (blockNext m info) (info + 8) a → blockNext m info a ≠ none →
      ∀ found s r t es, Ends (onTag rounds a (tagType m a) (tagSize m a) found) s r t es ↔
        r = .goOn (found || such a) ∧ H rounds a s t es)
    (hmono : ∀ n n' a s t es, n ≤ n' → H n a s t es → H n' a s t es)
    (hout : ∀ n a s t es, H n a s t es → (∀ e ∈ es, InBlock m info e) → contents a)
    (hin : ∀ a, contents a → ∀ s, ∃ n t es, H n a s t es ∧ ∀ e ∈ es, InBlock m info e) (s : S) :
    Safe m info (fun rounds => walkTags m (onTag rounds) rounds addr) s ↔ Orderly m info contents := by
  have hfinite := finite_bitVec w
  constructor
  · rintro ⟨r, t, es, ⟨n, hends⟩, hes⟩
    obtain ⟨l, z, ds, hvisits, -, -, hthreads, rfl⟩ :=
      (ends_walkTags haddr hinfo (honTag n)).mp (hends n (Nat.le_refl n))
    simp only [List.forall_mem_cons, List.forall_mem_append] at hes
    obtain ⟨htotal, hds, hlast⟩ := hes
    refine ⟨htotal, exists_visits_iff.mp ⟨l, z, hvisits⟩, ?_, ?_⟩
    · intro c hc hinside
      rcases hvisits.reaches_iff.mp hc with hc | rfl
      · exact (hthreads.part hout hds hc).1
      simp [lastReads, hlast, hinside]
    · intro c hc hnext
      rcases hvisits.reaches_iff.mp hc with hc | rfl
      · exact (hthreads.part hout hds hc).2
      · exact absurd hvisits.last_eq_none hnext
  · intro h
    obtain ⟨l, z, hvisits⟩ := exists_visits_iff.mpr h.ends
    have hl : ∀ c ∈ l, InBlock m info ⟨c.toNat, 4⟩ ∧ InBlock m info ⟨(c + 4).toNat, 4⟩ ∧ contents c := by
      intro c hc
      have hreach := hvisits.reaches_iff.mpr (.inl hc)
      have hnext := hvisits.isSome_of_mem hc
      refine ⟨h.type c hreach ?_, h.rest c hreach hnext⟩
      by_contra houtside
      exact hnext (if_neg fun hcond => houtside hcond.1)
    obtain ⟨n, t, es, hthreads, hes⟩ := exists_threads hmono hin hl s
    refine ⟨l.any such, t, ⟨info.toNat, 4⟩ :: (es ++ lastReads (blockEnd m info) z),
      ⟨max n (l.length + 1), fun rounds hrounds => ?_⟩, ?_⟩
    · exact (ends_walkTags haddr hinfo (honTag rounds)).mpr ⟨l, z, es, hvisits, le_of_max_le_right hrounds, rfl,
        hthreads rounds (le_of_max_le_left hrounds), rfl⟩
    · simp only [List.forall_mem_cons, List.forall_mem_append]
      refine ⟨h.total, hes, fun e he => ?_⟩
      rw [lastReads] at he
      split at he
      · rw [List.mem_singleton.mp he]
        exact h.type z (hvisits.reaches_iff.mpr (.inr rfl)) ‹_›
      · exact absurd he List.not_mem_nil

-- The size of the entries of a memory map, and every entry that the inner loop comes to.
structure MapInBlock (m : Memory) (info c : BitVec w) : Prop where
  size : InBlock m info ⟨(c + 8).toNat, 4⟩
  ends : ∀ x, Reaches (mapNext m c) (c + uintptr w sizeofMemoryMapTag) x → ¬Returns (mapNext m c) x
  entry : ∀ x, Reaches (mapNext m c) (c + uintptr w sizeofMemoryMapTag) x → mapNext m c x ≠ none →
    ∀ e ∈ entryReads x, InBlock m info e

theorem mapInBlock_of_visits {c z : BitVec w} {l : List (BitVec w)}
    (hvisits : Visits (mapNext m c) (c + uintptr w sizeofMemoryMapTag) l z)
    (hreads : ∀ e ∈ mapReads c l, InBlock m info e) : MapInBlock m info c := by
  have hfinite := finite_bitVec w
  rw [mapReads, List.forall_mem_append, List.forall_mem_flatMap, List.forall_mem_singleton] at hreads
  refine ⟨hreads.2, exists_visits_iff.mp ⟨l, z, hvisits⟩, fun x hx hnext => ?_⟩
  rcases hvisits.reaches_iff.mp hx with hx | rfl
  · exact (List.forall_mem_cons.mp (hreads.1 x hx)).2
  · exact absurd hvisits.last_eq_none hnext

theorem MapInBlock.exists_visits {c : BitVec w} (h : MapInBlock m info c) :
    ∃ l z, Visits (mapNext m c) (c + uintptr w sizeofMemoryMapTag) l z ∧
      ∀ e ∈ mapReads c l, InBlock m info e := by
  have hfinite := finite_bitVec w
  obtain ⟨l, z, hvisits⟩ := exists_visits_iff.mpr h.ends
  refine ⟨l, z, hvisits, ?_⟩
  rw [mapReads, List.forall_mem_append, List.forall_mem_flatMap, List.forall_mem_singleton]
  refine ⟨fun x hx => List.forall_mem_cons.mpr ⟨h.size, ?_⟩, h.size⟩
  exact h.entry x (hvisits.reaches_iff.mpr (.inl hx)) (hvisits.isSome_of_mem hx)

theorem safe_visitMemoryMap_iff (haddr : uintptr w addr.toNat = info) (hinfo : info ≠ 0)
    (visitor : Mm.MemoryMapEntryView → S → S) (s : S) :
    Safe m info (visitMemoryMap w m (some visitor) addr) s ↔
      Orderly m info fun c => IsMemoryMap m c → MapInBlock m info c := by
  refine safe_walkTags_iff haddr hinfo (fun rounds a _ _ found s r t es => ends_memoryMapTag) ?_ ?_ ?_ s
  · intro n n' a s t es hle h
    rw [MapHandled] at h ⊢
    grind
  · intro n a s t es h hes hmap
    rw [MapHandled, if_pos hmap] at h
    grind [mapInBlock_of_visits]
  · intro a h s
    by_cases hmap : IsMemoryMap m a
    · obtain ⟨l, z, hvisits, hreads⟩ := (h hmap).exists_visits
      refine ⟨l.length + 1, (l.map (entryView m)).foldl (fun s view => visitor view s) s, mapReads a l, ?_, hreads⟩
      rw [MapHandled, if_pos hmap]
      grind
    simp [MapHandled, hmap]

theorem safe_visitModules_iff (haddr : uintptr w addr.toNat = info) (hinfo : info ≠ 0)
    (visitor : ModuleView w → S → S) (s : S) :
    Safe m info (visitModules w m (some visitor) addr) s ↔
      Orderly m info fun c => IsModule m c →
        InBlock m info ⟨(c + 8).toNat, 4⟩ ∧ InBlock m info ⟨(c + 12).toNat, 4⟩ := by
  refine safe_walkTags_iff haddr hinfo (fun rounds a _ _ found s r t es => ends_moduleTag)
    (fun n n' a s t es _ h => h) ?_ ?_ s
  · intro n a s t es h hes hmodule
    rw [ModuleHandled, if_pos hmodule] at h
    simp [h, hes]
  · intro a h s
    by_cases hmodule : IsModule m a
    · refine ⟨0, visitor (moduleView m a) s, [⟨(a + 8).toNat, 4⟩, ⟨(a + 12).toNat, 4⟩], ?_, ?_⟩
      · simp [ModuleHandled, hmodule]
      grind
    simp [ModuleHandled, hmodule]

def NoAcpiTag (m : Memory) (info : BitVec w) : Prop :=
  ∀ c, Reaches (blockNext m info) (info + 8) c → blockNext m info c ≠ none →
    ¬IsAcpiTag (tagType m c) (tagSize m c)

theorem safe_discover_iff (haddr : uintptr w addr.toNat = info) (hinfo : info ≠ 0) (hacpi : NoAcpiTag m info)
    (s : AcpiInfo) : Safe m info (discover w m addr) s ↔ Orderly m info fun _ => True := by
  have hwalk := @safe_walkTags_iff w AcpiInfo m addr info (acpiTag m) (fun _ _ s t es => t = s ∧ es = [])
    (fun _ => false) (fun _ => True) haddr hinfo
    (fun rounds a ha hnext found s r t es => ends_acpiTag (hacpi a ha hnext)) (fun _ _ _ _ _ _ _ h => h)
    (fun _ _ _ _ _ _ _ => trivial)
    (fun a _ s => ⟨0, s, [], ⟨rfl, rfl⟩, fun e he => absurd he List.not_mem_nil⟩) .zero
  rw [← hwalk]
  have hsame : ∀ rounds r t es, Ends (discover w m addr rounds) s r t es ↔
      Ends (walkTags m (acpiTag (w := w) m rounds) rounds addr) .zero r t es := by
    intro rounds r t es
    have hclear : Ends (changeInfo fun _ => .zero) s () AcpiInfo.zero ([] : List Read) := rfl
    rw [discover, hclear.ends_bind]
    simp only [List.nil_append, exists_eq_right']
  simp only [Safe, Finishes, hsame]

theorem safe_of_null {walker : Nat → Scan S Bool} {s : S} (h : ∀ rounds, walker rounds = pure false) :
    Safe m info walker s := by
  refine ⟨false, s, [], ⟨0, fun rounds _ => ?_⟩, fun e he => absurd he List.not_mem_nil⟩
  rw [h rounds]
  exact ends_pure.mpr ⟨rfl, rfl, rfl⟩

end Walkers

def infoOf (w : Nat) (addr : UInt32) : BitVec w := uintptr w addr.toNat

-- Where the functions over the information return and stay within it. A null address is not looked at.
theorem walkers_safe_iff (w : Nat) (m : Memory) (addr : UInt32) :
    (∀ (S : Type) (visitor : Mm.MemoryMapEntryView → S → S) (s : S),
      Safe m (infoOf w addr) (visitMemoryMap w m (some visitor) addr) s ↔
        infoOf w addr = 0 ∨ Orderly m (infoOf w addr) fun c => IsMemoryMap m c → MapInBlock m (infoOf w addr) c) ∧
    (∀ (S : Type) (visitor : ModuleView w → S → S) (s : S),
      Safe m (infoOf w addr) (visitModules w m (some visitor) addr) s ↔
        infoOf w addr = 0 ∨ Orderly m (infoOf w addr) fun c => IsModule m c →
          InBlock m (infoOf w addr) ⟨(c + 8).toNat, 4⟩ ∧ InBlock m (infoOf w addr) ⟨(c + 12).toNat, 4⟩) ∧
    (NoAcpiTag m (infoOf w addr) → ∀ s, Safe m (infoOf w addr) (discover w m addr) s ↔
      infoOf w addr = 0 ∨ Orderly m (infoOf w addr) fun _ => True) := by
  by_cases hnull : infoOf w addr = 0
  · have hwalk : ∀ {S : Type} (onTag : BitVec w → Nat → Nat → Bool → Scan S Verdict) (rounds : Nat),
        walkTags m onTag rounds addr = pure false := fun _ _ => if_pos hnull
    refine ⟨fun S visitor s => ?_, fun S visitor s => ?_, fun _ s => ?_⟩
    iterate 2 exact iff_of_true (safe_of_null fun rounds => hwalk _ rounds) (.inl hnull)
    · refine iff_of_true ⟨false, .zero, [], ⟨0, fun rounds _ => ?_⟩, fun e he => absurd he List.not_mem_nil⟩
        (.inl hnull)
      rw [discover, hwalk]
      rfl
  · simp only [hnull, false_or]
    exact ⟨fun S => safe_visitMemoryMap_iff rfl hnull, fun S => safe_visitModules_iff rfl hnull,
      safe_discover_iff rfl hnull⟩

def blockAt (base : Nat) (bytes : List UInt8) : Memory := fun a => bytes.getD (a - base) 0

def emptyTagBlock : Memory := blockAt 0x1000 [16, 0, 0, 0, 0, 0, 0, 0, 1, 0, 0, 0, 0, 0, 0, 0]

-- Sixteen bytes: the header, and the first half of a module tag.
def cutModuleBlock : Memory := blockAt 0x1000 [16, 0, 0, 0, 0, 0, 0, 0, 3, 0, 0, 0, 16, 0, 0, 0]

theorem emptyTag_stays : blockNext emptyTagBlock (infoOf 32 0x1000) (infoOf 32 0x1000 + 8) =
    some (infoOf 32 0x1000 + 8) := by decide +kernel

theorem cutModule_next : blockNext cutModuleBlock (infoOf 32 0x1000) (infoOf 32 0x1000 + 8) ≠ none := by
  decide +kernel

theorem emptyTag_not_orderly (contents : BitVec 32 → Prop) :
    ¬Orderly emptyTagBlock (infoOf 32 0x1000) contents := by
  intro h
  exact h.ends _ .refl (.single emptyTag_stays)

theorem emptyTag_noAcpiTag : NoAcpiTag emptyTagBlock (infoOf 32 0x1000) := by
  intro c hc hnext
  have hplace : c = infoOf 32 0x1000 + 8 := by
    clear hnext
    induction hc with
    | refl => rfl
    | tail _ hstep ih =>
      rw [ih] at hstep
      exact Option.some.inj (hstep.symm.trans emptyTag_stays)
  rw [hplace]
  decide +kernel

theorem walkers_unsafe :
    (∀ s : List Mm.MemoryMapEntryView,
      ¬Safe emptyTagBlock (infoOf 32 0x1000) (visitMemoryMap 32 emptyTagBlock (some List.cons) 0x1000) s) ∧
    (∀ s : List (ModuleView 32),
      ¬Safe emptyTagBlock (infoOf 32 0x1000) (visitModules 32 emptyTagBlock (some List.cons) 0x1000) s) ∧
    (NoAcpiTag emptyTagBlock (infoOf 32 0x1000) ∧
      ∀ s, ¬Safe emptyTagBlock (infoOf 32 0x1000) (discover 32 emptyTagBlock 0x1000) s) ∧
    ∀ s : List (ModuleView 32),
      ¬Safe cutModuleBlock (infoOf 32 0x1000) (visitModules 32 cutModuleBlock (some List.cons) 0x1000) s := by
  have hinfo : infoOf 32 0x1000 ≠ 0 := by decide
  refine ⟨fun s h => ?_, fun s h => ?_, ⟨emptyTag_noAcpiTag, fun s h => ?_⟩, fun s h => ?_⟩
  · exact emptyTag_not_orderly _ ((safe_visitMemoryMap_iff rfl hinfo _ s).mp h)
  · exact emptyTag_not_orderly _ ((safe_visitModules_iff rfl hinfo _ s).mp h)
  · exact emptyTag_not_orderly _ ((safe_discover_iff rfl hinfo emptyTag_noAcpiTag s).mp h)
  · have horderly := (safe_visitModules_iff rfl hinfo _ s).mp h
    have hpart := (horderly.rest _ .refl cutModule_next).2 (by decide +kernel)
    revert hpart
    rw [InBlock, InBlock]
    decide +kernel

end Wirth.Kernel.Boot

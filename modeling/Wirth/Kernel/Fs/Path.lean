import Wirth.Lib.Text
import Mathlib.Data.List.Chain

namespace Wirth.Kernel.Fs

open Wirth.Lib

def slash : UInt8 := chr '/'

-- A text argument is read up to its first zero byte. Runs of slashes are written as one.
def normalizeFrom (outSize : Nat) (out : Str) (prevSlash : Bool) : Str → Option Str
  | [] => some out
  | c :: rest =>
      if c = 0 then some out
      else if c = slash then
        if prevSlash then normalizeFrom outSize out prevSlash rest
        else if out.length + 1 ≥ outSize then none
        else normalizeFrom outSize (out ++ [slash]) true rest
      else if out.length + 1 ≥ outSize then none
      else normalizeFrom outSize (out ++ [c]) false rest

def normalizePath (path : Option Str) (outSize : Nat) : Option Str :=
  match path with
  | none => none
  | some [] => none
  | some (c :: rest) =>
      if outSize < 2 then none
      else if c ≠ slash then none
      else (normalizeFrom outSize [slash] true rest).map fun out =>
        if 1 < out.length ∧ out.getLast? = some slash then out.dropLast else out

def copyText (src : Str) (maxSize : Nat) : Str := src.take (maxSize - 1)

def rootPath : Str := [slash]

def nameSize : Nat := 64

def parentPath (path : Str) : Str :=
  let upTo := (path.rdropWhile fun c => c ≠ slash).dropLast
  if upTo = [] then path.take 1 else upTo

-- An absolute path as the file system stores it: single slashes, none at the end, and room
-- for the zero byte.
structure NormalPath (path : Str) : Prop where
  absolute : path.head? = some slash
  single : path.IsChain fun a b => ¬(a = slash ∧ b = slash)
  trailing : path = rootPath ∨ path.getLast? ≠ some slash
  length : path.length < nameSize
  text : 0 ∉ path

instance (path : Str) : Decidable (NormalPath path) :=
  decidable_of_iff (path.head? = some slash ∧ path.IsChain (fun a b => ¬(a = slash ∧ b = slash)) ∧
      (path = rootPath ∨ path.getLast? ≠ some slash) ∧ path.length < nameSize ∧ 0 ∉ path)
    ⟨fun h => ⟨h.1, h.2.1, h.2.2.1, h.2.2.2.1, h.2.2.2.2⟩,
      fun h => ⟨h.absolute, h.single, h.trailing, h.length, h.text⟩⟩

structure Written (outSize : Nat) (out : Str) (prevSlash : Bool) : Prop where
  absolute : out.head? = some slash
  single : out.IsChain fun a b => ¬(a = slash ∧ b = slash)
  last : prevSlash = true ↔ out.getLast? = some slash
  length : out.length < outSize
  text : 0 ∉ out

variable {outSize : Nat} {out : Str} {prevSlash : Bool}

theorem Written.push (h : Written outSize out prevSlash)
    {c : UInt8} (hc : c ≠ 0) (hroom : out.length + 1 < outSize)
    (hsingle : c = slash → prevSlash = false) : Written outSize (out ++ [c]) (c = slash) := by
  have hne : out ≠ [] := by
    intro he
    simpa [he] using h.absolute
  refine ⟨?_, ?_, by simp, by simpa using hroom, ?_⟩
  · rw [List.head?_append_of_ne_nil _ hne]
    exact h.absolute
  · rw [List.isChain_append]
    refine ⟨h.single, List.isChain_singleton _, ?_⟩
    intro a ha b hb hboth
    simp only [List.head?_cons, Option.mem_def, Option.some.injEq] at hb
    subst hb
    have hslash := h.last.mpr (by rw [← hboth.1]; exact ha)
    simp [hsingle hboth.2] at hslash
  · simp only [List.mem_append, List.mem_singleton, not_or]
    exact ⟨h.text, hc.symm⟩

theorem normalizeFrom_written {path result : Str}
    (hout : Written outSize out prevSlash)
    (h : normalizeFrom outSize out prevSlash path = some result) :
    ∃ prev, Written outSize result prev := by
  induction path generalizing out prevSlash with
  | nil =>
    cases h
    exact ⟨prevSlash, hout⟩
  | cons c rest ih =>
    simp only [normalizeFrom] at h
    split_ifs at h with hzero hslash hprev hroom hroom
    · cases h
      exact ⟨prevSlash, hout⟩
    · exact ih hout h
    · have hpush := hout.push hzero (by omega) fun _ => by simpa using hprev
      grind
    · have hpush := hout.push hzero (by omega) fun he => absurd he hslash
      exact ih (by simpa [hslash] using hpush) h

theorem normalizePath_normal {path : Option Str} {result : Str}
    (h : normalizePath path nameSize = some result) : NormalPath result := by
  unfold normalizePath at h
  split at h
  · cases h
  · cases h
  · split_ifs at h with hsize hc
    obtain ⟨out, hout, rfl⟩ := Option.map_eq_some_iff.mp h
    have hstart : Written nameSize [slash] true :=
      ⟨rfl, List.isChain_singleton _, by simp, by decide, by decide⟩
    obtain ⟨prev, hw⟩ := normalizeFrom_written hstart hout
    split_ifs with htrail
    · -- one slash at the end goes, and there is no second one before it
      obtain ⟨front, rfl⟩ : ∃ front, out = front ++ [slash] :=
        ⟨out.dropLast, (List.dropLast_append_getLast? slash htrail.2).symm⟩
      rw [List.dropLast_concat]
      have hne : front ≠ [] := by
        rintro rfl
        simp at htrail
      obtain ⟨hchain, _, hlink⟩ := List.isChain_append.mp hw.single
      refine ⟨?_, hchain, Or.inr ?_, ?_, ?_⟩
      · rw [← hw.absolute, List.head?_append_of_ne_nil _ hne]
      · grind
      · have := hw.length
        simp at this
        omega
      · exact fun hmem => hw.text (List.mem_append_left _ hmem)
    · refine ⟨hw.absolute, hw.single, ?_, hw.length, hw.text⟩
      by_cases hlen : 1 < out.length
      · grind
      · left
        have habs := hw.absolute
        cases out with
        | nil => simp at habs
        | cons a tail =>
          grind [rootPath]

theorem parentPath_prefix {path : Str} (h : NormalPath path) (hroot : parentPath path ≠ rootPath) :
    (parentPath path ++ [slash]).isPrefixOf path = true := by
  have htake : path.take 1 = rootPath := by
    cases path with
    | nil => cases h.absolute
    | cons c rest =>
      have habs := h.absolute
      grind [rootPath]
  unfold parentPath at hroot ⊢
  simp only at hroot ⊢
  split_ifs at hroot ⊢ with hup
  · exact absurd htake hroot
  · have hne : (path.rdropWhile fun c => c ≠ slash) ≠ [] := by
      intro he
      rw [he] at hup
      exact hup rfl
    have hlast : (path.rdropWhile fun c => c ≠ slash).getLast hne = slash := by
      simpa using List.rdropWhile_last_not (fun c => c ≠ slash) path hne
    have hwhole := List.dropLast_append_getLast hne
    rw [hlast] at hwhole
    rw [List.isPrefixOf_iff_prefix, hwhole]
    exact List.rdropWhile_prefix _ _

end Wirth.Kernel.Fs

import Wirth.Kernel.Fs.Listing

namespace Wirth.Kernel.Fs

open Wirth.Lib

-- What may stand between two slashes.
def IsName (name : Str) : Prop := name ≠ [] ∧ slash ∉ name

-- Names joined by slashes, from the root down.
def joinNames (names : List Str) : Str := slash :: [slash].intercalate names

-- Runs of slashes are collapsed, and there is none at the end.
def canonical (path : Str) : Str := joinNames (components path)

-- What the loop writes: the names, and a slash behind the last one if the path has one there.
def written (path : Str) : Str :=
  [slash].intercalate (components path) ++
    if path.getLast? = some slash ∧ components path ≠ [] then [slash] else []

section Joined

variable {path : Str}

-- A path is a name, or a name with a slash and another path behind it.
theorem path_induction {motive : Str → Prop} (word : ∀ name, slash ∉ name → motive name)
    (cut : ∀ name rest, slash ∉ name → motive rest → motive (name ++ slash :: rest)) (path : Str) :
    motive path := by
  induction hlength : path.length using Nat.strong_induction_on generalizing path with
  | h n ih =>
    by_cases hslash : slash ∈ path
    · obtain ⟨name, rest, rfl, hname⟩ := List.eq_append_cons_of_mem hslash
      refine cut name rest hname (ih rest.length ?_ rest rfl)
      rw [← hlength, List.length_append, List.length_cons]
      omega
    · exact word path hslash

theorem components_word {name : Str} (hslash : slash ∉ name) :
    components name = if name = [] then [] else [name] := by
  by_cases hname : name = []
  · rw [if_pos hname, hname]
    rfl
  · rw [if_neg hname, components_name hname hslash]

theorem mem_components {name : Str} (h : name ∈ components path) : IsName name ∧ name ⊆ path := by
  induction path using path_induction with
  | word whole hslash =>
    rw [components_word hslash] at h
    split_ifs at h with hne
    · cases h
    · obtain rfl := List.mem_singleton.mp h
      exact ⟨⟨hne, hslash⟩, List.Subset.refl _⟩
  | cut front rest hslash ih =>
    rw [components_append, List.mem_append, components_word hslash] at h
    rcases h with h | h
    · split_ifs at h with hne
      · cases h
      · obtain rfl := List.mem_singleton.mp h
        exact ⟨⟨hne, hslash⟩, List.subset_append_left _ _⟩
    · obtain ⟨hname, hsub⟩ := ih h
      exact ⟨hname, fun c hc => by simp [hsub hc]⟩

theorem intercalate_cons {name : Str} {rest : List Str} (hrest : rest ≠ []) :
    [slash].intercalate (name :: rest) = name ++ slash :: [slash].intercalate rest := by
  obtain ⟨next, rest, rfl⟩ := List.exists_cons_of_ne_nil hrest
  simp [List.intercalate]

theorem getLast?_joinNames {names : List Str} (hsome : names ≠ []) (h : ∀ name ∈ names, IsName name) :
    (joinNames names).getLast? ≠ some slash := by
  induction names with
  | nil => exact absurd rfl hsome
  | cons name rest ih =>
    obtain ⟨hname, hslash⟩ := h name List.mem_cons_self
    by_cases hrest : rest = []
    · subst hrest
      intro hlast
      obtain ⟨c, name, rfl⟩ := List.exists_cons_of_ne_nil hname
      simp only [joinNames, List.intercalate, List.intersperse, List.flatten_cons, List.flatten_nil,
        List.append_nil, List.getLast?_cons_cons] at hlast
      exact hslash (List.mem_of_getLast? hlast)
    · have hlast := ih hrest fun name hmem => h name (List.mem_cons_of_mem _ hmem)
      rw [joinNames, intercalate_cons hrest, ← List.cons_append, List.getLast?_append]
      simpa [joinNames] using hlast

theorem joinNames_eq {names : List Str} (hsome : names ≠ []) :
    joinNames names = names.flatMap (slash :: ·) := by
  induction names with
  | nil => exact absurd rfl hsome
  | cons name rest ih =>
    by_cases hrest : rest = []
    · simp [hrest, joinNames]
    · rw [joinNames, intercalate_cons hrest, List.flatMap_cons, ← ih hrest]
      rfl

theorem mem_joinNames {names : List Str} {c : UInt8} (h : c ∈ joinNames names) :
    c = slash ∨ ∃ name ∈ names, c ∈ name := by
  by_cases hnone : names = []
  · subst hnone
    exact .inl (List.mem_singleton.mp h)
  · rw [joinNames_eq hnone, List.mem_flatMap] at h
    obtain ⟨name, hname, hmem⟩ := h
    exact (List.mem_cons.mp hmem).imp_right fun hc => ⟨name, hname, hc⟩

theorem components_joinNames {names : List Str} (h : ∀ name ∈ names, IsName name) :
    components (joinNames names) = names := by
  induction names with
  | nil => rfl
  | cons name rest ih =>
    obtain ⟨hname, hslash⟩ := h name List.mem_cons_self
    have hnames := ih fun name hmem => h name (List.mem_cons_of_mem _ hmem)
    rw [joinNames, components_slash] at hnames ⊢
    by_cases hrest : rest = []
    · subst hrest
      simpa using components_name hname hslash
    · rw [intercalate_cons hrest, components_append, hnames, components_name hname hslash]
      rfl

theorem getLast?_cut (name rest : Str) :
    (name ++ slash :: rest).getLast? = some slash ↔ rest = [] ∨ rest.getLast? = some slash := by
  cases rest with
  | nil => simp
  | cons c rest => simp [List.getLast?_cons_cons]

-- A path without names consists of slashes.
theorem getLast?_of_components_nil (h : components path = []) :
    path = [] ∨ path.getLast? = some slash := by
  induction path using path_induction with
  | word name hslash =>
    rw [components_word hslash] at h
    split_ifs at h with hname
    exact .inl hname
  | cut name rest hslash ih =>
    rw [components_append, List.append_eq_nil_iff] at h
    exact .inr ((getLast?_cut name rest).mpr (ih h.2))

theorem written_word {name : Str} (hslash : slash ∉ name) : written name = name := by
  have hlast : name.getLast? ≠ some slash := fun h => hslash (List.mem_of_getLast? h)
  simp only [written, hlast, false_and, if_false, List.append_nil, components_word hslash]
  split_ifs with hname
  · rw [hname]
    rfl
  · simp [List.intercalate]

theorem written_slash (rest : Str) : written (slash :: rest) = written rest := by
  have hlast : (slash :: rest).getLast? = some slash ↔ rest = [] ∨ rest.getLast? = some slash :=
    getLast?_cut [] rest
  simp only [written, components_slash, hlast]
  by_cases hnil : rest = []
  · rw [hnil]
    rfl
  · simp [hnil]

theorem written_cut {name : Str} (hname : name ≠ []) (hslash : slash ∉ name) (rest : Str) :
    written (name ++ slash :: rest) = name ++ slash :: written rest := by
  have hnames : components (name ++ slash :: rest) = name :: components rest := by
    rw [components_append, components_name hname hslash, List.singleton_append]
  simp only [written, hnames, getLast?_cut]
  by_cases hnone : components rest = []
  · simp [hnone, getLast?_of_components_nil hnone, List.intercalate]
  · have hrest : rest ≠ [] := by
      rintro rfl
      exact hnone rfl
    simp [hnone, hrest, intercalate_cons hnone]

end Joined

section Loop

variable {outSize : Nat} {out path : Str}

theorem normalizeFrom_word {name : Str} (prevSlash : Bool) (rest : Str) (hslash : slash ∉ name)
    (hzero : 0 ∉ name) (hout : out.length < outSize) :
    normalizeFrom outSize out prevSlash (name ++ rest) =
      if out.length + name.length < outSize then
        normalizeFrom outSize (out ++ name) (prevSlash && decide (name = [])) rest
      else none := by
  induction name generalizing out prevSlash with
  | nil => simp [hout]
  | cons c name ih =>
    have hc : c ≠ 0 := fun he => hzero (by simp [he])
    have hcs : c ≠ slash := fun he => hslash (by simp [he])
    rw [List.cons_append, normalizeFrom, if_neg hc, if_neg hcs]
    by_cases hroom : out.length + 1 ≥ outSize
    · rw [if_pos hroom, if_neg (by rw [List.length_cons]; omega)]
    · have hnext : (out ++ [c]).length < outSize := by
        rw [List.length_append, List.length_singleton]
        omega
      rw [if_neg hroom, ih false (fun h => hslash (by simp [h])) (fun h => hzero (by simp [h])) hnext]
      simp [Nat.add_assoc, Nat.add_comm 1]

theorem normalizeFrom_slash (prevSlash : Bool) (rest : Str) :
    normalizeFrom outSize out prevSlash (slash :: rest) =
      if prevSlash then normalizeFrom outSize out true rest
      else if out.length + 1 ≥ outSize then none
      else normalizeFrom outSize (out ++ [slash]) true rest := by
  cases prevSlash <;> rfl

theorem normalizeFrom_eq (hzero : 0 ∉ path) (hout : out.length < outSize) :
    normalizeFrom outSize out true path =
      if out.length + (written path).length < outSize then some (out ++ written path) else none := by
  induction path using path_induction generalizing out with
  | word name hslash =>
    have hloop := normalizeFrom_word true [] hslash hzero hout
    rw [List.append_nil] at hloop
    rw [hloop, written_word hslash]
    rfl
  | cut name rest hslash ih =>
    have hname : 0 ∉ name := fun h => hzero (by simp [h])
    have hrest : 0 ∉ rest := fun h => hzero (by simp [h])
    by_cases hempty : name = []
    · subst hempty
      rw [List.nil_append, written_slash, normalizeFrom_slash, if_pos rfl, ih hrest hout]
    · rw [normalizeFrom_word true (slash :: rest) hslash hname hout, written_cut hempty hslash]
      simp only [normalizeFrom_slash, hempty, decide_false, Bool.and_false, Bool.false_eq_true,
        if_false, List.length_append, List.length_cons]
      by_cases hroom : out.length + name.length + 1 < outSize
      · rw [if_pos (by omega), if_neg (by omega), ih hrest (by simpa [Nat.add_assoc] using hroom)]
        simp [Nat.add_assoc, Nat.add_comm, Nat.add_left_comm]
      · split_ifs <;> first | rfl | omega

theorem normalizePath_relative (hrelative : path.head? ≠ some slash) :
    normalizePath (some path) outSize = none := by
  cases path with
  | nil => rfl
  | cons c rest =>
    have hc : c ≠ slash := fun he => hrelative (by rw [he, List.head?_cons])
    simp [normalizePath, hc]

theorem normalizePath_eq (hzero : 0 ∉ path) (hsize : 2 ≤ outSize) (habs : path.head? = some slash) :
    normalizePath (some path) outSize =
      if (slash :: written path).length < outSize then some (canonical path) else none := by
  obtain ⟨rest, rfl⟩ : ∃ rest, path = slash :: rest := by
    cases path with
    | nil => cases habs
    | cons c rest => exact ⟨rest, by rw [Option.some.inj habs]⟩
  have hloop : normalizeFrom outSize [slash] true rest =
      if (slash :: written (slash :: rest)).length < outSize then
        some ([slash] ++ written (slash :: rest)) else none := by
    rw [normalizeFrom_eq (fun h => hzero (by simp [h])) hsize, written_slash, List.length_cons,
      Nat.add_comm]
    rfl
  rw [normalizePath, if_neg (by omega), if_neg (by simp), hloop]
  split_ifs with hroom
  · rw [Option.map_some, Option.some.injEq]
    -- what is dropped is the slash behind the last name
    by_cases htrail : (slash :: rest).getLast? = some slash ∧ components (slash :: rest) ≠ []
    · have hwritten : written (slash :: rest) =
          [slash].intercalate (components (slash :: rest)) ++ [slash] := by
        rw [written, if_pos htrail]
      rw [hwritten, ← List.append_assoc, List.getLast?_concat, List.dropLast_concat, if_pos (by simp)]
      rfl
    · have hwritten : [slash] ++ written (slash :: rest) = canonical (slash :: rest) := by
        rw [written, if_neg htrail, List.append_nil]
        rfl
      rw [hwritten, if_neg]
      rintro ⟨hlong, hlast⟩
      refine getLast?_joinNames ?_ (fun name hname => (mem_components hname).1) hlast
      intro hnone
      rw [canonical, hnone] at hlong
      exact absurd hlong (by decide)
  · rfl

theorem written_joinNames {names : List Str} (h : ∀ name ∈ names, IsName name) :
    slash :: written (joinNames names) = joinNames names := by
  have hlast : ¬((joinNames names).getLast? = some slash ∧ names ≠ []) :=
    fun hlast => getLast?_joinNames hlast.2 h hlast.1
  rw [written, components_joinNames h, if_neg hlast, List.append_nil]
  rfl

theorem normalizePath_joinNames {names : List Str} (h : ∀ name ∈ names, IsName name ∧ name ⊆ path)
    (hzero : 0 ∉ path) (hsize : 2 ≤ outSize) (hlength : (joinNames names).length < outSize) :
    normalizePath (some (joinNames names)) outSize = some (joinNames names) := by
  have hnames : ∀ name ∈ names, IsName name := fun name hname => (h name hname).1
  have htext : 0 ∉ joinNames names := by
    intro hmem
    rcases mem_joinNames hmem with hslash | ⟨name, hname, hmem⟩
    · exact absurd hslash (by decide)
    · exact hzero ((h name hname).2 hmem)
  rw [normalizePath_eq htext hsize rfl, written_joinNames hnames, if_pos hlength, canonical,
    components_joinNames hnames]

end Loop

-- The path is normalised if it starts with a slash and its canonical form fits, and then to that
-- form, which is left as it is.
def NormalizesExactly (path : Str) (outSize : Nat) : Prop :=
  ∀ out, (normalizePath (some path) outSize = some out ↔
      path.head? = some slash ∧ (canonical path).length < outSize ∧ out = canonical path) ∧
    (normalizePath (some path) outSize = some out → normalizePath (some out) outSize = some out)

-- Before the slash at the end is dropped it needs room, too.
theorem normalize_exact_iff {path : Str} (hzero : 0 ∉ path) {outSize : Nat} (hsize : 2 ≤ outSize) :
    NormalizesExactly path outSize ↔ ¬(path.head? = some slash ∧ path.getLast? = some slash ∧
      components path ≠ [] ∧ (canonical path).length + 1 = outSize) := by
  by_cases habs : path.head? = some slash
  · have heq := normalizePath_eq hzero hsize habs
    have hagain : (canonical path).length < outSize →
        normalizePath (some (canonical path)) outSize = some (canonical path) :=
      normalizePath_joinNames (fun _ => mem_components) hzero hsize
    have hiff : NormalizesExactly path outSize ↔
        ((slash :: written path).length < outSize ↔ (canonical path).length < outSize) := by
      unfold NormalizesExactly
      rw [heq]
      constructor
      · intro h
        simpa [habs] using (h (canonical path)).1
      · intro h out
        split_ifs with hroom
        · refine ⟨by simp [habs, h.mp hroom, eq_comm], ?_⟩
          rintro ⟨⟩
          exact hagain (h.mp hroom)
        · simp [mt h.mpr hroom]
    rw [hiff, written, canonical, joinNames]
    split_ifs with htrail
    · simp [habs, htrail]
      omega
    · simp only [List.append_nil, iff_self, true_iff]
      exact fun h => htrail ⟨h.2.1, h.2.2.1⟩
  · refine iff_of_true (fun out => ?_) fun h => habs h.1
    simp [normalizePath_relative habs, habs]

-- A directory whose path has 63 characters.
def longPath : Str := slash :: List.replicate 62 (chr 'a')

theorem normalize_exact_sloppy : NormalizesExactly (lit "//usr//share/") 64 :=
  (normalize_exact_iff (by decide) (by decide)).mpr (by decide +kernel)

-- With a slash behind it the path is refused.
theorem longest_path_refused : normalizePath (some (longPath ++ [slash])) nameSize = none ∧
    ¬NormalizesExactly (longPath ++ [slash]) nameSize := by
  have hnone : normalizePath (some (longPath ++ [slash])) nameSize = none := by decide +kernel
  refine ⟨hnone, fun h => ?_⟩
  have hsome := (h (canonical (longPath ++ [slash]))).1.mpr ⟨rfl, by decide +kernel, rfl⟩
  rw [hnone] at hsome
  cases hsome

end Wirth.Kernel.Fs

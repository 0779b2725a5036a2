import Wirth.Kernel.Fs.Canonical
import Wirth.Kernel.Shell.Move

namespace Wirth.Kernel.Shell

open Wirth.Lib Wirth.Kernel.Fs

def isPlain (name : Str) : Bool := name ≠ lit "." ∧ name ≠ lit ".."

-- `..` at the root does nothing.
def foldComponent (stack : List Str) (name : Str) : List Str :=
  if name = lit "." then stack
  else if name = lit ".." then stack.dropLast
  else stack ++ [name]

def stackOf (names : List Str) : List Str := names.foldl foldComponent []

def lexical (path : Str) : Str := joinNames (stackOf (components path))

-- The stack never needs more entries than the arrays have.
def Shallow (path : Str) : Prop :=
  ∀ names, names <+: components path → (stackOf names).length ≤ 16

section Stack

variable {stack segments names : List Str} {out path : Str} {outSize : Nat}

theorem foldComponent_plain {name : Str} (h : isPlain name) :
    foldComponent stack name = stack ++ [name] := by
  obtain ⟨hdot, hdots⟩ := of_decide_eq_true h
  rw [foldComponent, if_neg hdot, if_neg hdots]

theorem foldl_component_plain (h : ∀ name ∈ names, isPlain name) :
    names.foldl foldComponent stack = stack ++ names := by
  induction names generalizing stack with
  | nil => rw [List.foldl_nil, List.append_nil]
  | cons name rest ih =>
    rw [List.foldl_cons, foldComponent_plain (h name List.mem_cons_self),
      ih fun name hmem => h name (List.mem_cons_of_mem _ hmem), ← List.append_cons]

theorem foldl_component_sublist :
    (names.foldl foldComponent stack).Sublist (stack ++ names.filter isPlain) := by
  induction names generalizing stack with
  | nil => simp
  | cons name rest ih =>
    refine ih.trans ?_
    by_cases hplain : isPlain name
    · rw [foldComponent_plain hplain, List.filter_cons_of_pos hplain,
        List.append_cons stack name (rest.filter isPlain)]
    · rw [List.filter_cons_of_neg hplain]
      refine List.Sublist.append_right ?_ _
      unfold foldComponent
      split_ifs with hdot hdots
      · exact List.Sublist.refl _
      · exact List.dropLast_sublist _
      · exact absurd (decide_eq_true ⟨hdot, hdots⟩) hplain

theorem pushSegment_eq {segment : Str} (hsegment : segment ≠ []) (hstack : stack.length ≤ 16) :
    pushSegment stack segment = if (foldComponent stack segment).length ≤ 16 then
      some (foldComponent stack segment) else none := by
  unfold pushSegment foldComponent
  by_cases hdot : segment = lit "."
  · rw [if_pos (.inr hdot), if_pos hdot, if_pos hstack]
  rw [if_neg (by simp [hsegment, hdot]), if_neg hdot]
  by_cases hdots : segment = lit ".."
  · rw [if_pos hdots, if_pos hdots, List.length_dropLast, if_pos (by omega)]
  · rw [if_neg hdots, if_neg hdots, List.length_append, List.length_singleton]
    split_ifs <;> first | rfl | omega

theorem foldlM_pushSegment (hstack : stack.length ≤ 16) (parts : List Str) :
    parts.foldlM pushSegment stack = some segments ↔
      segments = (parts.filter fun c => c ≠ []).foldl foldComponent stack ∧
        ∀ names, names <+: parts.filter (fun c => c ≠ []) →
          (names.foldl foldComponent stack).length ≤ 16 := by
  induction parts generalizing stack with
  | nil => simp [hstack, eq_comm]
  | cons part rest ih =>
    rw [List.foldlM_cons]
    by_cases hempty : part = []
    · simpa [hempty, pushSegment] using ih hstack
    rw [pushSegment_eq hempty hstack, List.filter_cons_of_pos (by simpa using hempty), List.foldl_cons]
    simp only [List.prefix_cons_iff]
    by_cases hfit : (foldComponent stack part).length ≤ 16
    · rw [if_pos hfit, Option.bind_eq_bind, Option.bind_some, ih hfit]
      refine and_congr_right fun _ => ⟨?_, fun h names hnames => h _ (.inr ⟨names, rfl, hnames⟩)⟩
      rintro h _ (rfl | ⟨names, rfl, hnames⟩)
      · exact hstack
      · exact h names hnames
    · rw [if_neg hfit]
      exact iff_of_false (by simp) fun h => hfit (h.2 [part] (.inr ⟨[], rfl, List.nil_prefix⟩))

theorem foldlM_writeSegment (hout : out.length < outSize) {result : Str} :
    segments.foldlM (fun out segment => if outSize ≤ out.length + 1 then none
        else writeSegment outSize (out ++ [slash]) segment) out = some result ↔
      result = out ++ segments.flatMap (slash :: ·) ∧ result.length < outSize := by
  induction segments generalizing out with
  | nil =>
    rw [List.foldlM_nil, List.flatMap_nil, List.append_nil]
    constructor
    · rintro ⟨⟩
      exact ⟨rfl, hout⟩
    · rintro ⟨rfl, _⟩
      rfl
  | cons segment rest ih =>
    have hcons : out ++ (segment :: rest).flatMap (slash :: ·) =
        out ++ slash :: segment ++ rest.flatMap (slash :: ·) := by simp
    rw [List.foldlM_cons, writeSegment, hcons, List.append_assoc, List.singleton_append]
    by_cases hroom : (out ++ slash :: segment).length < outSize
    · rw [if_neg (by grind), if_neg (by grind)]
      exact ih hroom
    · have hnone : (if outSize ≤ out.length + 1 then none
          else if outSize ≤ (out ++ [slash]).length + segment.length then none
            else some (out ++ slash :: segment)) = none := by grind
      rw [hnone]
      refine iff_of_false (by simp) ?_
      rintro ⟨rfl, hlength⟩
      rw [List.length_append] at hlength
      omega

theorem writeSegments_eq_some (hsize : 2 ≤ outSize) :
    writeSegments outSize segments = some out ↔ out = joinNames segments ∧ out.length < outSize := by
  cases segments with
  | nil =>
    rw [writeSegments, Option.some_inj, eq_comm]
    refine (and_iff_left_of_imp ?_).symm
    rintro rfl
    exact hsize
  | cons first rest =>
    -- the first slash is that of the root
    have hloop : writeSegments outSize (first :: rest) = (first :: rest).foldlM (fun out segment =>
        if outSize ≤ out.length + 1 then none
        else writeSegment outSize (out ++ [slash]) segment) [] := by
      rw [List.foldlM_cons, if_neg (by simp; omega)]
      rfl
    rw [hloop, foldlM_writeSegment (by simp; omega), joinNames_eq (List.cons_ne_nil _ _),
      List.nil_append]

theorem normalizeAbsolutePath_eq_some (habs : path.head? = some slash) (hsize : 2 ≤ outSize) :
    normalizeAbsolutePath path outSize = some out ↔
      Shallow path ∧ out = lexical path ∧ out.length < outSize := by
  cases path with
  | nil => cases habs
  | cons c rest =>
    obtain rfl := Option.some.inj habs
    rw [normalizeAbsolutePath, if_neg (by simp; omega), Shallow, lexical, components_slash]
    simp only [Option.bind_eq_bind, Option.bind_eq_some_iff, writeSegments_eq_some hsize]
    have hfolds := fun segments => @foldlM_pushSegment [] segments (Nat.zero_le 16)
    constructor
    · rintro ⟨segments, hfold, rfl, hlength⟩
      obtain ⟨rfl, hshallow⟩ := (hfolds _ _).mp hfold
      exact ⟨hshallow, rfl, hlength⟩
    · rintro ⟨hshallow, rfl, hlength⟩
      exact ⟨_, (hfolds _ _).mpr ⟨rfl, hshallow⟩, rfl, hlength⟩

theorem mem_stackOf {name : Str} (h : name ∈ stackOf (components path)) :
    (IsName name ∧ name ⊆ path) ∧ isPlain name := by
  obtain ⟨hmem, hplain⟩ := List.mem_filter.mp (foldl_component_sublist.subset h)
  exact ⟨mem_components hmem, hplain⟩

theorem components_lexical (path : Str) : components (lexical path) = stackOf (components path) :=
  components_joinNames fun _ hmem => (mem_stackOf hmem).1.1

theorem stackOf_lexical (h : names <+: stackOf (components path)) : stackOf names = names :=
  foldl_component_plain fun _ hmem => (mem_stackOf (h.subset hmem)).2

theorem lexical_lexical (path : Str) : lexical (lexical path) = lexical path := by
  rw [lexical, components_lexical, stackOf_lexical List.prefix_rfl, ← lexical]

theorem Shallow.lexical (h : Shallow path) : Shallow (Shell.lexical path) := by
  intro names hnames
  rw [components_lexical] at hnames
  rw [stackOf_lexical hnames]
  exact hnames.length_le.trans (h _ List.prefix_rfl)

end Stack

-- The shell's normalisation is the fold, and both normalisations leave its result as it is.
theorem normalizeAbsolutePath_exact {path : Str} (hzero : 0 ∉ path) (habs : path.head? = some slash)
    {outSize : Nat} (hsize : 2 ≤ outSize) (out : Str) :
    (normalizeAbsolutePath path outSize = some out ↔
      Shallow path ∧ out = lexical path ∧ out.length < outSize) ∧
    (normalizeAbsolutePath path outSize = some out →
      normalizeAbsolutePath out outSize = some out ∧ normalizePath (some out) outSize = some out) := by
  refine ⟨normalizeAbsolutePath_eq_some habs hsize, fun h => ?_⟩
  obtain ⟨hshallow, rfl, hlength⟩ := (normalizeAbsolutePath_eq_some habs hsize).mp h
  constructor
  · rw [normalizeAbsolutePath_eq_some rfl hsize]
    exact ⟨hshallow.lexical, (lexical_lexical path).symm, hlength⟩
  · exact normalizePath_joinNames (fun _ hname => (mem_stackOf hname).1) hzero hsize hlength

theorem normalizeAbsolutePath_exact_sloppy :
    normalizeAbsolutePath (lit "/usr//./share/../../bin/") 64 = some (lit "/bin") ∧
      normalizePath (some (lit "/bin")) 64 = some (lit "/bin") := by
  have h : normalizeAbsolutePath (lit "/usr//./share/../../bin/") 64 = some (lit "/bin") := by
    decide +kernel
  exact ⟨h, ((normalizeAbsolutePath_exact (by decide) rfl (by decide) _).2 h).2⟩

section Resolve

variable {cwd input path : Str}

def wholePath (cwd input : Str) : Str :=
  if input.head? = some slash then input else cwd ++ slash :: input

-- What the array holds: at the root no second slash is put before the input.
def cutPath (cwd input : Str) : Str :=
  (if input.head? ≠ some slash ∧ cwd = rootPath then slash :: input
    else wholePath cwd input).take (kMaxPath - 1)

theorem length_components (path : Str) :
    ((components path).flatMap (slash :: ·)).length ≤ path.length + 1 := by
  have hword : ∀ name, slash ∉ name →
      ((components name).flatMap (slash :: ·)).length ≤ name.length + 1 := by
    intro name hslash
    rw [components_word hslash]
    split_ifs <;> simp
  induction path using path_induction with
  | word name hslash => exact hword name hslash
  | cut name rest hslash ih =>
    have hname := hword name hslash
    rw [components_append, List.flatMap_append, List.length_append, List.length_append,
      List.length_cons]
    omega

theorem length_lexical (habs : path.head? = some slash) : (lexical path).length ≤ path.length := by
  cases path with
  | nil => cases habs
  | cons c rest =>
    obtain rfl := Option.some.inj habs
    rw [lexical, components_slash]
    by_cases hnone : stackOf (components rest) = []
    · rw [hnone]
      exact Nat.succ_le_succ (Nat.zero_le _)
    · have hsub : (stackOf (components rest)).Sublist (components rest) :=
        foldl_component_sublist.trans List.filter_sublist
      rw [joinNames_eq hnone]
      exact (hsub.flatMap _).length_le.trans (length_components rest)

theorem resolvePath_eq (hcwd : NormalPath cwd) (hinput : 0 ∉ input) :
    resolvePath cwd input kMaxPath = if input.head? ≠ some slash ∧ cwd.length = 63 then none
      else normalizeAbsolutePath (cutPath cwd input) kMaxPath := by
  have htext : ∀ s : Str, 0 ∉ s → s.takeWhile (· ≠ 0) = s := by
    intro s hs
    rw [List.takeWhile_eq_self_iff]
    grind
  have hlength : cwd.length ≤ 63 := Nat.le_of_lt_succ hcwd.length
  simp only [resolvePath, htext cwd hcwd.text, htext input hinput, cutPath, wholePath]
  by_cases habs : input.head? = some slash
  · simp [habs, copyText]
  by_cases hroot : cwd = rootPath
  · simp [habs, hroot, copyText, kMaxPath, rootPath]
  · have hwhole : cwd.take (kMaxPath - 1) = cwd := List.take_of_length_le hlength
    have hcopy : copyText cwd kMaxPath = cwd := hwhole
    simp only [habs, hroot, hcopy, and_false, if_false, ne_eq, not_false_eq_true, true_and]
    by_cases hfull : cwd.length = 63
    · rw [if_pos hfull, if_pos (by rw [hfull]; decide)]
    · obtain ⟨room, hroom⟩ : ∃ room, kMaxPath - 1 - cwd.length = room + 1 :=
        ⟨62 - cwd.length, by rw [kMaxPath]; omega⟩
      have hrest : kMaxPath - cwd.length - 1 - 1 = room := by omega
      rw [if_neg hfull, if_neg (by omega), List.take_append, hroom, List.take_succ_cons, copyText,
        hrest, hwhole]

theorem cutPath_absolute (hcwd : NormalPath cwd) : (cutPath cwd input).head? = some slash := by
  have hcons : ∀ s : Str, s.head? = some slash → (s.take (kMaxPath - 1)).head? = some slash := by
    intro s hs
    rw [List.head?_take, if_neg (by decide), hs]
  unfold cutPath wholePath
  split_ifs with hroot habs
  · exact hcons _ rfl
  · exact hcons _ habs
  · refine hcons _ ?_
    rw [List.head?_append, hcwd.absolute, Option.some_or]

end Resolve

def KeepsTarget (cwd input : Str) : Prop :=
  resolvePath cwd input kMaxPath = none ∨
    resolvePath cwd input kMaxPath = some (lexical (wholePath cwd input))

-- What is cut off may take names away again.
theorem resolve_keeps_target_iff {cwd input : Str} (hcwd : NormalPath cwd) (hinput : 0 ∉ input) :
    KeepsTarget cwd input ↔ (input.head? ≠ some slash ∧ cwd.length = 63) ∨
      ¬Shallow (cutPath cwd input) ∨
      lexical (cutPath cwd input) = lexical (wholePath cwd input) := by
  have habs := @cutPath_absolute cwd input hcwd
  have hshort : (lexical (cutPath cwd input)).length < kMaxPath :=
    Nat.lt_succ_of_le ((length_lexical habs).trans (List.length_take_le _ _))
  have hsome := fun out => @normalizeAbsolutePath_eq_some out _ kMaxPath habs (by decide)
  rw [KeepsTarget, resolvePath_eq hcwd hinput]
  by_cases hfull : input.head? ≠ some slash ∧ cwd.length = 63
  · rw [if_pos hfull]
    exact iff_of_true (.inl rfl) (.inl hfull)
  rw [if_neg hfull, or_iff_right hfull]
  by_cases hshallow : Shallow (cutPath cwd input)
  · rw [(hsome _).mpr ⟨hshallow, rfl, hshort⟩]
    simp [hshallow]
  · refine iff_of_true (.inl (Option.eq_none_iff_forall_ne_some.mpr fun out h => ?_)) (.inl hshallow)
    exact hshallow ((hsome out).mp h).1

theorem resolve_keeps_short_target : KeepsTarget (lit "/home") (lit "../etc") :=
  (resolve_keeps_target_iff (by decide) (by decide)).mpr (.inr (.inr (by decide +kernel)))

-- `cat`, `rm` or `cd` then work on the file, not on the root.
theorem resolve_drops_parent :
    resolvePath rootPath (List.replicate 62 (chr 'a') ++ lit "/..") kMaxPath = some longPath ∧
      lexical (wholePath rootPath (List.replicate 62 (chr 'a') ++ lit "/..")) = rootPath ∧
      ¬KeepsTarget rootPath (List.replicate 62 (chr 'a') ++ lit "/..") := by
  have hresolve : resolvePath rootPath (List.replicate 62 (chr 'a') ++ lit "/..") kMaxPath =
      some longPath := by decide +kernel
  have hlexical : lexical (wholePath rootPath (List.replicate 62 (chr 'a') ++ lit "/..")) =
      rootPath := by decide +kernel
  refine ⟨hresolve, hlexical, ?_⟩
  rw [KeepsTarget, hresolve, hlexical]
  decide

end Wirth.Kernel.Shell

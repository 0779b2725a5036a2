import Wirth.Toolchain.Assembler.Passes
import Wirth.Toolchain.Files
import Wirth.Toolchain.Json.Dump
import Wirth.Toolchain.Macro.Output

namespace Wirth.Toolchain.Build

open Wirth.Lib Wirth.Toolchain.Json Wirth.Toolchain.Macro

section Commands

variable (visit : Visit) {F : Type} [FileSystem F]

def expandFile (macros : Macros) (fs : F) (src : Str) : Result (Str × Macros) := do
  let (lines, macros) ← processLines visit macros (← readLines fs src)
  .ok (joinLines lines, macros)

def processFile (macros : Macros) (fs : F) (src dst : Str) : Result (F × Macros) := do
  let (text, macros) ← expandFile visit macros fs src
  .ok (← writeText fs dst text, macros)

def assembleFile (D : Type) [Floating D] (fs : F) (src objOut : Str) : Result F := do
  let result ← Assembler.assembleLines (D := D) (← readLines fs src) (stem src) src
  writeText fs objOut (dump result)

def macroCommand (fs : F) (src dst : Str) : Result F := do
  .ok (← processFile visit OrdMap.empty fs src dst).1

-- What the loop of the command `build` carries from one source to the next.
structure State (F : Type) where
  fs : F
  macros : Macros
  objects : List Str

def expandedPath (outDir src : Str) : Str := joinPath outDir (stem src ++ lit ".mcr.asm")

def objectPath (outDir src : Str) : Str := joinPath outDir (stem src ++ lit ".obj.json")

def buildSource (D : Type) [Floating D] (outDir : Str) (st : State F) (src : Str) :
    Result (State F) := do
  let expanded := expandedPath outDir src
  let obj := objectPath outDir src
  let (fs, macros) ← processFile visit st.macros st.fs src expanded
  let fs ← assembleFile D fs expanded obj
  .ok ⟨fs, macros, st.objects ++ [obj]⟩

def buildSources (D : Type) [Floating D] (outDir : Str) (fs : F) (sources : List Str) :
    Result (State F) := do
  let fs ← orThrow (lit "filesystem error: cannot create directories")
    (FileSystem.createDirectories fs outDir)
  sources.foldlM (buildSource visit D outDir) ⟨fs, OrdMap.empty, []⟩

end Commands

section Text

theorem dropReturn_oneLine {line : Str} (h : OneLine line) : OneLine (dropReturn line) := by
  unfold dropReturn
  split_ifs
  · exact fun hc => h (List.dropLast_subset _ hc)
  · exact h

theorem splitLines_oneLine (text : Str) :
    (∀ l ∈ (splitLines text).1, OneLine l) ∧ OneLine (splitLines text).2 := by
  refine List.foldlRecOn (motive := fun st : List Str × Str => (∀ l ∈ st.1, OneLine l) ∧ OneLine st.2)
    text _ ?_ ?_
  · exact ⟨by simp, by simp [OneLine]⟩
  · rintro ⟨lines, current⟩ ⟨hlines, hcurrent⟩ ch _
    split_ifs with hch
    · grind [OneLine, dropReturn_oneLine]
    · refine ⟨hlines, ?_⟩
      simp only [OneLine, List.mem_append, List.mem_singleton, not_or]
      exact ⟨hcurrent, Ne.symm hch⟩

theorem textLines_oneLine (text : Str) : ∀ l ∈ textLines text, OneLine l := by
  obtain ⟨hlines, hcurrent⟩ := splitLines_oneLine text
  grind [textLines, dropReturn_oneLine]

theorem append_break_inj {a b s t : Str} (ha : OneLine a) (hb : OneLine b)
    (h : a ++ chr '\n' :: s = b ++ chr '\n' :: t) : a = b ∧ s = t := by
  induction a generalizing b with
  | nil =>
    cases b with
    | nil => simpa using h
    | cons c rest =>
      simp only [List.nil_append, List.cons_append, List.cons.injEq] at h
      exact absurd (by rw [h.1]; simp) hb
  | cons c rest ih =>
    cases b with
    | nil =>
      simp only [List.nil_append, List.cons_append, List.cons.injEq] at h
      exact absurd (by rw [← h.1]; simp) ha
    | cons d others =>
      simp only [List.cons_append, List.cons.injEq] at h
      obtain ⟨hrest, hst⟩ := ih (fun hc => ha (List.mem_cons_of_mem _ hc))
        (fun hc => hb (List.mem_cons_of_mem _ hc)) h.2
      exact ⟨by rw [h.1, hrest], hst⟩

theorem joinLines_cons {line : Str} {rest : List Str} (h : line ≠ []) (hrest : ∀ l ∈ rest, l ≠ []) :
    joinLines (line :: rest) = line ++ chr '\n' :: joinLines rest := by
  have hbreak : lit "\n" = [chr '\n'] := by decide
  cases rest with
  | nil => simp [joinLines, linesText, h, hbreak]
  | cons next rest =>
    have hne : linesText (next :: rest) ≠ [] := by
      cases rest <;> simp [linesText, hrest next (by simp)]
    simp [joinLines, linesText, hne, h, hbreak]

theorem joinLines_inj {lines others : List Str} (hlines : ∀ l ∈ lines, l ≠ [] ∧ OneLine l)
    (hothers : ∀ l ∈ others, l ≠ [] ∧ OneLine l) (h : joinLines lines = joinLines others) :
    lines = others := by
  have hcons : ∀ {line : Str} {rest : List Str}, (∀ l ∈ line :: rest, l ≠ [] ∧ OneLine l) →
      joinLines (line :: rest) = line ++ chr '\n' :: joinLines rest := by
    intro line rest hall
    exact joinLines_cons (hall line (by simp)).1 fun l hl => (hall l (List.mem_cons_of_mem _ hl)).1
  induction lines generalizing others with
  | nil =>
    cases others with
    | nil => rfl
    | cons other rest =>
      rw [hcons hothers] at h
      simp [joinLines, linesText] at h
  | cons line rest ih =>
    cases others with
    | nil =>
      rw [hcons hlines] at h
      simp [joinLines, linesText] at h
    | cons other others =>
      rw [hcons hlines, hcons hothers] at h
      obtain ⟨rfl, htail⟩ := append_break_inj (hlines line (by simp)).2
        (hothers other (by simp)).2 h
      rw [ih (fun l hl => hlines l (List.mem_cons_of_mem _ hl))
        (fun l hl => hothers l (List.mem_cons_of_mem _ hl)) htail]

end Text

variable {visit : Visit} {D : Type} [Floating D] {F : Type} [FileSystem F]

section Loop

variable (F) in
def Untouched (outDir : Str) (front : List Str) (src : Str) : Prop :=
  ∀ s ∈ front, ¬FileSystem.sameFile F (expandedPath outDir s) src ∧
    ¬FileSystem.sameFile F (objectPath outDir s) src

theorem readLines_oneLine {fs : F} {src : Str} {lines : List Str} (h : readLines fs src = .ok lines) :
    ∀ l ∈ lines, OneLine l := by
  grind [readLines, bind_eq_ok, textLines_oneLine]

theorem expandFile_eq_ok {macros : Macros} {fs : F} {src text : Str} {after : Macros} :
    expandFile visit macros fs src = .ok (text, after) ↔ ∃ lines output,
      readLines fs src = .ok lines ∧ processLines visit macros lines = .ok (output, after) ∧
      joinLines output = text := by
  simp only [expandFile, bind_eq_ok, Except.ok.injEq, Prod.mk.injEq]
  constructor
  · simp
  simp

theorem buildSource_eq_ok {outDir src : Str} {st st' : State F}
    (h : buildSource visit D outDir st src = .ok st') :
    ∃ text fs fs' result, expandFile visit st.macros st.fs src = .ok (text, st'.macros) ∧
      writeText st.fs (expandedPath outDir src) text = .ok fs ∧
      writeText fs (objectPath outDir src) result = .ok fs' ∧ st'.fs = fs' := by
  simp only [buildSource, processFile, assembleFile, bind_eq_ok, Except.ok.injEq] at h
  grind

-- What the loop keeps: a table of lines, and the files it has not written.
theorem buildSources_invariant {outDir : Str} {fs : F} {front : List Str} {st : State F}
    (h : buildSources visit D outDir fs front = .ok st) :
    Macros.OneLine st.macros ∧
      ∀ src, Untouched F outDir front src → readText st.fs src = readText fs src := by
  simp only [buildSources, bind_eq_ok, orThrow_eq_ok] at h
  obtain ⟨made, hmade, h⟩ := h
  refine foldlM_invariant (buildSource visit D outDir) (fun st => Macros.OneLine st.macros ∧
    ∀ src, Untouched F outDir front src → readText st.fs src = readText fs src) front ?_ ?_ h
  · intro st s hs st' hst hstep
    obtain ⟨text, fs₁, fs₂, result, hexpand, hfs₁, hfs₂, hfs⟩ := buildSource_eq_ok hstep
    obtain ⟨lines, output, hlines, houtput, _⟩ := expandFile_eq_ok.mp hexpand
    refine ⟨(processFrom_oneLine hst.1 (readLines_oneLine hlines) houtput).2, ?_⟩
    intro src hsrc
    rw [hfs, readText_writeText hfs₂ (hsrc s hs).2, readText_writeText hfs₁ (hsrc s hs).1,
      hst.2 src hsrc]
  · refine ⟨fun n m hm => by simp at hm, ?_⟩
    grind [readText, FileSystem.contents_createDirectories]

end Loop

section Plain

def Plain (lines : List Str) : Prop :=
  ∀ raw ∈ lines, startsWith (lit "MACRO") (trim (stripComment raw)) = false

theorem Plain.first_ne {raw first : Str} {rest operands : List Str} (h : Plain (raw :: rest))
    (ht : tokenize (trim (stripComment raw)) = first :: operands) : upper first ≠ lit "MACRO" := by
  have hraw := h raw (by simp)
  simpa [startsWith, ht] using hraw

theorem Plain.tail {raw : Str} {rest : List Str} (h : Plain (raw :: rest)) : Plain rest :=
  fun r hr => h r (List.mem_cons_of_mem _ hr)

theorem Plain.missedFrom_eq {lines : List Str} (h : Plain lines) (i : Nat) (macros : Macros) :
    missedFrom visit true i lines macros = missedFrom visit false i lines macros := by
  induction lines generalizing i with
  | nil => rw [missedFrom, missedFrom]
  | cons raw rest ih =>
    cases ht : tokenize (trim (stripComment raw)) with
    | nil => rw [missedFrom_blank ht, missedFrom_blank ht, ih h.tail]
    | cons first operands =>
      rw [missedFrom_line ht (h.first_ne ht), missedFrom_line ht (h.first_ne ht), ih h.tail]

theorem Plain.processFrom_ok {lines : List Str} (h : Plain lines) (i : Nat) :
    ∃ output, processFrom visit i lines OrdMap.empty = .ok (output, OrdMap.empty) := by
  induction lines generalizing i with
  | nil => exact ⟨[], processFrom_nil⟩
  | cons raw rest ih =>
    obtain ⟨output, houtput⟩ := ih h.tail (i + 1)
    cases ht : tokenize (trim (stripComment raw)) with
    | nil => simp [processFrom_blank, ht, houtput]
    | cons first operands =>
      refine ⟨[trim (stripComment raw)] ++ output, ?_⟩
      rw [processFrom_line ht (h.first_ne ht), houtput]
      simp [expandLine, ht]

end Plain

section Agreement

variable (visit)

def Writes (macros : Macros) (fs : F) (src text : Str) : Prop :=
  ∃ after, expandFile visit macros fs src = .ok (text, after)

-- `build` in this state and `macro` on the files as they were at first write the same text
-- for a source, or neither writes one.
def Agree (fs : F) (st : State F) (src : Str) : Prop :=
  ∀ text, Writes visit st.macros st.fs src text ↔ Writes visit OrdMap.empty fs src text

-- The names that a source, processed alone, looks up and does not find.
def missedNames (bodies : Bool) (fs : F) (src : Str) : List Str :=
  match readLines fs src with
  | .ok lines => missedFrom visit bodies 0 lines OrdMap.empty
  | .error _ => []

end Agreement

theorem writes_iff {macros : Macros} {fs : F} {src text : Str} {lines : List Str}
    (hlines : readLines fs src = .ok lines) : Writes visit macros fs src text ↔
      ∃ output, joinLines output = text ∧
        ∃ after, processLines visit macros lines = .ok (output, after) := by
  simp only [Writes, expandFile_eq_ok, hlines, Except.ok.injEq]
  grind

section Source

variable {fs : F} {st : State F} {src : Str} {lines : List Str}

theorem agree_of_missed (hread : readLines st.fs src = .ok lines)
    (hlines : readLines fs src = .ok lines)
    (h : ∀ n ∈ missedFrom visit true 0 lines OrdMap.empty, st.macros.find? n = none) :
    Agree visit fs st src := by
  have hover : Over st.macros OrdMap.empty st.macros := by
    intro n
    simp
  have hsame := (processFrom_over hover h).output_iff
  intro text
  rw [writes_iff hread, writes_iff hlines]
  refine exists_congr fun output => and_congr_right fun _ => ?_
  exact hsame output

theorem output_good {macros after : Macros} {output : List Str} (htable : Macros.OneLine macros)
    (hlines : ∀ l ∈ lines, OneLine l) (h : processLines visit macros lines = .ok (output, after)) :
    ∀ l ∈ output, l ≠ [] ∧ OneLine l := by
  intro l hl
  obtain ⟨first, operands, ht, _⟩ := processFrom_settled h l hl
  refine ⟨?_, (processFrom_oneLine htable hlines h).1 l hl⟩
  rintro rfl
  simp [tokenize, tokenizeFrom] at ht

-- If the texts agree then so do the lines, and a line that `build` writes starts with no
-- macro it knows.
theorem missed_of_agree (htable : Macros.OneLine st.macros)
    (hread : readLines st.fs src = .ok lines) (hlines : readLines fs src = .ok lines)
    (hagree : Agree visit fs st src) {text : Str}
    (htext : Writes visit OrdMap.empty fs src text) :
    ∀ n ∈ missedFrom visit false 0 lines OrdMap.empty, st.macros.find? n = none := by
  intro n hn
  obtain ⟨shared, hjoin, after', hshared⟩ := (writes_iff hread).mp ((hagree text).mpr htext)
  obtain ⟨own, rfl, after, hown⟩ := (writes_iff hlines).mp htext
  have hempty : Macros.OneLine OrdMap.empty := fun n m hm => by simp at hm
  have hone := readLines_oneLine hlines
  have hequal := joinLines_inj (output_good htable hone hshared) (output_good hempty hone hown) hjoin
  subst hequal
  obtain ⟨l, hl, operands, ht⟩ := missedFrom_output hown hn
  obtain ⟨first, ops, ht', hfirst⟩ := processFrom_settled hshared l hl
  rw [ht] at ht'
  cases ht'
  exact hfirst

end Source

-- One processor serves all sources of a build, and its table is never cleared. A source is
-- expanded as it would be alone if it never asks for a macro that an earlier source has
-- left. It is not if a line outside of its definitions asks for one, so for a source
-- without definitions the condition is exact.
theorem build_agrees_with_alone {outDir src : Str} {fs : F} {front : List Str} {st : State F}
    (hfront : buildSources visit D outDir fs front = .ok st) (hsrc : Untouched F outDir front src) :
    ((∀ n ∈ missedNames visit true fs src, st.macros.find? n = none) → Agree visit fs st src) ∧
    (Agree visit fs st src → (∃ text, Writes visit OrdMap.empty fs src text) →
      ∀ n ∈ missedNames visit false fs src, st.macros.find? n = none) ∧
    ((∀ lines, readLines fs src = .ok lines → Plain lines) →
      (Agree visit fs st src ↔ ∀ n ∈ missedNames visit true fs src, st.macros.find? n = none)) := by
  obtain ⟨htable, hsame⟩ := buildSources_invariant hfront
  have hread : readLines st.fs src = readLines fs src := by
    rw [readLines, hsame src hsrc, readLines]
  cases hlines : readLines fs src with
  | error e =>
    rw [hlines] at hread
    have hagree : Agree visit fs st src := by
      intro text
      simp [Writes, expandFile, hread, hlines]
    have hnames : ∀ bodies, missedNames visit bodies fs src = [] := by
      intro bodies
      simp [missedNames, hlines]
    refine ⟨fun _ => hagree, fun _ _ => ?_, fun _ => iff_of_true hagree ?_⟩ <;> simp [hnames]
  | ok lines =>
    rw [hlines] at hread
    have hnames : ∀ bodies, missedNames visit bodies fs src =
        missedFrom visit bodies 0 lines OrdMap.empty := by
      intro bodies
      simp [missedNames, hlines]
    simp only [hnames]
    refine ⟨agree_of_missed hread hlines, ?_, ?_⟩
    · rintro hagree ⟨text, htext⟩
      exact missed_of_agree htable hread hlines hagree htext
    · intro hplain
      refine ⟨fun hagree => ?_, agree_of_missed hread hlines⟩
      have hp := hplain lines rfl
      obtain ⟨output, houtput⟩ := hp.processFrom_ok 0
      rw [hp.missedFrom_eq]
      exact missed_of_agree htable hread hlines hagree
        ((writes_iff hlines).mpr ⟨output, rfl, OrdMap.empty, houtput⟩)

section Example

-- The order of first assignment, which a map with one key always has.
def listed : Visit := ⟨List.dedup, fun _ => List.Perm.refl _⟩

-- One source defines a macro, a second uses the name as it stands, a third does not use it.
def sharedFiles : OrdMap Str Str :=
  ((OrdMap.empty.insert (lit "a.asm") (lit "MACRO INC r\nADD \x7br\x7d, R1\nMEND\nHALT\n")).insert
    (lit "b.asm") (lit "INC R2\n")).insert (lit "c.asm") (lit "PRINT R2\n")

def incMacro : MacroDef := ⟨lit "INC", [lit "r"], [lit "ADD \x7br\x7d, R1"]⟩

theorem buildSources_first : ∃ st, buildSources listed Empty (lit "out") sharedFiles [lit "a.asm"] =
    .ok st ∧ st.macros = OrdMap.empty.insert (lit "INC") incMacro := by
  have hrun : (buildSources listed Empty (lit "out") sharedFiles [lit "a.asm"]).map State.macros =
      .ok (OrdMap.empty.insert (lit "INC") incMacro) := by
    decide +kernel
  obtain ⟨st, hst, hmacros⟩ := map_eq_ok.mp hrun
  exact ⟨st, hst, hmacros⟩

theorem untouched_first {src : Str} (h : src ∈ [lit "b.asm", lit "c.asm"]) :
    Untouched (OrdMap Str Str) (lit "out") [lit "a.asm"] src := by
  intro s hs
  rw [List.mem_singleton] at hs
  subst hs
  simp only [List.mem_cons, List.not_mem_nil, or_false] at h
  rcases h with rfl | rfl
  · exact (by decide : lit "out/a.mcr.asm" ≠ lit "b.asm" ∧ lit "out/a.obj.json" ≠ lit "b.asm")
  · exact (by decide : lit "out/a.mcr.asm" ≠ lit "c.asm" ∧ lit "out/a.obj.json" ≠ lit "c.asm")

-- The second source is rewritten by the macro of the first.
theorem build_differs_from_alone :
    ([lit "a.asm", lit "b.asm"].map stem).Nodup ∧
    (buildSources listed Empty (lit "out") sharedFiles [lit "a.asm", lit "b.asm"]).toBool = true ∧
    ∃ st, buildSources listed Empty (lit "out") sharedFiles [lit "a.asm"] = .ok st ∧
      Writes listed st.macros st.fs (lit "b.asm") (lit "ADD R2, R1\n") ∧
      Writes listed OrdMap.empty sharedFiles (lit "b.asm") (lit "INC R2\n") ∧
      ¬Agree listed sharedFiles st (lit "b.asm") := by
  obtain ⟨st, hst, hmacros⟩ := buildSources_first
  have hread : readLines st.fs (lit "b.asm") = .ok [lit "INC R2", []] := by
    rw [readLines, (buildSources_invariant hst).2 _ (untouched_first (by simp))]
    decide +kernel
  have hbuild : Writes listed st.macros st.fs (lit "b.asm") (lit "ADD R2, R1\n") := by
    rw [writes_iff hread, hmacros]
    exact ⟨[lit "ADD R2, R1"], by decide, OrdMap.empty.insert (lit "INC") incMacro,
      by decide +kernel⟩
  have halone : expandFile listed OrdMap.empty sharedFiles (lit "b.asm") =
      .ok (lit "INC R2\n", OrdMap.empty) := by
    decide +kernel
  refine ⟨by decide, by decide +kernel, st, hst, hbuild, ⟨_, halone⟩, ?_⟩
  intro hagree
  obtain ⟨after, h⟩ := (hagree _).mp hbuild
  rw [halone, Except.ok.injEq, Prod.mk.injEq] at h
  exact absurd h.1 (by decide)

-- The third is left alone.
theorem build_agrees_with_alone_unused : ∃ st,
    buildSources listed Empty (lit "out") sharedFiles [lit "a.asm"] = .ok st ∧
      Writes listed st.macros st.fs (lit "c.asm") (lit "PRINT R2\n") := by
  obtain ⟨st, hst, hmacros⟩ := buildSources_first
  refine ⟨st, hst, ?_⟩
  have hmissed : missedNames listed true sharedFiles (lit "c.asm") = [lit "PRINT"] := by
    decide +kernel
  have huntouched := untouched_first (show lit "c.asm" ∈ [lit "b.asm", lit "c.asm"] by simp)
  have hagree := (build_agrees_with_alone hst huntouched).1
    (by rw [hmissed, hmacros]; decide +kernel)
  exact (hagree _).mpr ⟨OrdMap.empty, by decide +kernel⟩

end Example

end Wirth.Toolchain.Build

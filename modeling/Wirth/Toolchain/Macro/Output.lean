import Wirth.Toolchain.Macro.Sharing

namespace Wirth.Toolchain.Macro

open Wirth.Lib

-- Expansion only moves characters around: what it puts out was in the line or in the table.

variable {c : UInt8} {s : Str}

theorem mem_trim (h : c ∈ trim s) : c ∈ s :=
  (List.dropWhile_suffix _).subset ((List.rdropWhile_prefix _ _).subset h)

theorem mem_stripComment (h : c ∈ stripComment s) : c ∈ s :=
  (List.takeWhile_prefix _).subset h

theorem mem_argItem {a current : Str} (ha : a ∈ argItem current) (hc : c ∈ a) :
    c ∈ current := by
  grind [argItem, mem_trim]

theorem mem_splitArgsFrom {c quote : UInt8} {current a s : Str}
    (ha : a ∈ splitArgsFrom quote current s) (hc : c ∈ a) : c ∈ current ∨ c ∈ s := by
  induction s generalizing quote current with
  | nil => exact Or.inl (mem_argItem ha hc)
  | cons ch rest ih =>
    have hpush : c ∈ current ++ [ch] ∨ c ∈ rest → c ∈ current ∨ c ∈ ch :: rest := by
      simp only [List.mem_append, List.mem_cons, List.not_mem_nil, or_false]
      tauto
    have hdrop : c ∈ current ∨ c ∈ rest → c ∈ current ∨ c ∈ ch :: rest :=
      Or.imp_right (List.mem_cons_of_mem _)
    simp only [splitArgsFrom] at ha
    split_ifs at ha
    · exact hdrop (ih ha)
    · exact hpush (ih ha)
    · exact hdrop (ih ha)
    · grind [mem_argItem]
    · exact hpush (ih ha)

theorem mem_callArgs {first line a : Str} (ha : a ∈ callArgs first line) (hc : c ∈ a) :
    c ∈ line := by
  simp only [callArgs] at ha
  split_ifs at ha
  · cases ha
  · rcases mem_splitArgsFrom ha hc with h | h
    · cases h
    grind [List.mem_of_mem_drop, mem_trim]

theorem mem_argOf {c : UInt8} {params args : List Str} {param : Str}
    (h : c ∈ argOf params args param) : ∃ a ∈ args, c ∈ a := by
  unfold argOf at h
  cases hl : (params.zip args).reverse.lookup param with
  | none =>
    rw [hl] at h
    cases h
  | some a =>
    rw [hl] at h
    have hmem := List.mem_reverse.mp (mem_of_lookup hl)
    exact ⟨a, (List.of_mem_zip hmem).2, h⟩

theorem mem_replaceFrom {pattern value s : Str} {skip : Nat}
    (h : c ∈ replaceFrom pattern value skip s) : c ∈ value ∨ c ∈ s := by
  induction s generalizing skip with
  | nil => cases skip <;> cases h
  | cons d rest ih =>
    cases skip with
    | succ k => exact (ih h).imp_right (List.mem_cons_of_mem _)
    | zero =>
      simp only [replaceFrom] at h
      split_ifs at h
      · grind
      grind

theorem mem_replaceAll {text pattern value : Str}
    (h : c ∈ replaceAll text pattern value) : c ∈ value ∨ c ∈ text := by
  grind [replaceAll, mem_replaceFrom]

theorem mem_substitute {visit : Visit} {c : UInt8} {params args : List Str} {bodyLine : Str}
    (h : c ∈ substitute visit params args bodyLine) : c ∈ bodyLine ∨ ∃ a ∈ args, c ∈ a := by
  unfold substitute at h
  generalize visit.keys params = keys at h
  induction keys generalizing bodyLine with
  | nil => exact Or.inl h
  | cons param rest ih =>
    rcases ih h with hc | hc
    · rcases mem_replaceAll hc with hc | hc
      · exact Or.inr (mem_argOf hc)
      · rcases mem_replaceAll hc with hc | hc
        · exact Or.inr (mem_argOf hc)
        · exact Or.inl hc
    · exact Or.inr hc

theorem mem_takeBody {nested : Nat} {lines body rest : List Str}
    (h : takeBody nested lines = some (body, rest)) :
    (∀ l ∈ body, ∃ raw ∈ lines, l = trim (stripComment raw)) ∧ ∀ l ∈ rest, l ∈ lines := by
  induction lines generalizing nested body with
  | nil => simp [takeBody] at h
  | cons raw tail ih =>
    have hkeep : ∀ n, (takeBody n tail).map (fun p => (trim (stripComment raw) :: p.1, p.2)) =
        some (body, rest) → (∀ l ∈ body, ∃ r ∈ raw :: tail, l = trim (stripComment r)) ∧
          ∀ l ∈ rest, l ∈ raw :: tail := by
      intro n hn
      obtain ⟨⟨b, r⟩, hb, he⟩ := Option.map_eq_some_iff.mp hn
      cases he
      obtain ⟨hbody, hrest⟩ := ih hb
      refine ⟨?_, fun l hl => List.mem_cons_of_mem _ (hrest l hl)⟩
      intro l hl
      rcases List.mem_cons.mp hl with rfl | hl
      · exact ⟨raw, by simp, rfl⟩
      · simp [hbody, hl]
    simp only [takeBody] at h
    grind

-- A line without a line break, and a table of such lines.

def OneLine (line : Str) : Prop := chr '\n' ∉ line

def Macros.OneLine (macros : Macros) : Prop :=
  ∀ n m, macros.find? n = some m → ∀ b ∈ m.body, Macro.OneLine b

theorem Macros.OneLine.insert {macros : Macros} (h : Macros.OneLine macros) (name : Str)
    {m : MacroDef} (hm : ∀ b ∈ m.body, Macro.OneLine b) :
    Macros.OneLine (OrdMap.insert macros name m) := by
  intro n d hd
  rw [OrdMap.find?_insert] at hd
  split_ifs at hd
  · cases hd
    exact hm
  · exact h n d hd

theorem oneLine_statement {raw : Str} (h : OneLine raw) : OneLine (trim (stripComment raw)) :=
  fun hc => h (mem_stripComment (mem_trim hc))

section Output

variable {visit : Visit} {macros : Macros}

variable {left : Nat} {line : Str} {out : List Str}

theorem expandLine_some {line first : Str} {operands out : List Str} {m : MacroDef}
    (ht : tokenize line = first :: operands) (hm : macros.find? first = some m)
    (h : expandLine visit macros (left + 1) line = .ok out) :
    ∃ nested, m.body.mapM (fun bodyLine => expandLine visit macros left
      (substitute visit m.params (callArgs first line) bodyLine)) = .ok nested ∧
      out = nested.flatten ∧ (callArgs first line).length = m.params.length := by
  simp only [expandLine, ht, hm, ite_error_eq_ok, bind_eq_ok, Except.ok.injEq, not_not] at h
  grind

-- A rule for what holds of every line of the output: it holds of the lines that are put
-- out as they are.
theorem expandLine_output {p q : Str → Prop}
    (hkeep : ∀ line first operands, q line → tokenize line = first :: operands →
      macros.find? first = none → p line)
    (hbody : ∀ line first operands m, q line → tokenize line = first :: operands →
      macros.find? first = some m → (callArgs first line).length = m.params.length → ∀ b ∈ m.body,
        q (substitute visit m.params (callArgs first line) b))
    {left : Nat} {line : Str} {out : List Str} (hline : q line)
    (h : expandLine visit macros left line = .ok out) : ∀ l ∈ out, p l := by
  induction left generalizing line out with
  | zero => cases h
  | succ left ih =>
    cases ht : tokenize line with
    | nil =>
      grind [expandLine]
    | cons first operands =>
      cases hm : macros.find? first with
      | none =>
        grind [expandLine]
      | some m =>
        obtain ⟨nested, hnested, rfl, hlen⟩ := expandLine_some ht hm h
        intro l hl
        obtain ⟨part, hpart, hl⟩ := List.mem_flatten.mp hl
        obtain ⟨b, hb, hrun⟩ := mem_of_mapM_eq_ok hnested part hpart
        grind

def Settled (macros : Macros) (line : Str) : Prop :=
  ∃ first operands, tokenize line = first :: operands ∧ macros.find? first = none

theorem expandLine_settled
    (h : expandLine visit macros left line = .ok out) : ∀ l ∈ out, Settled macros l :=
  expandLine_output (q := fun _ => True)
    (fun _ first operands _ ht hm => ⟨first, operands, ht, hm⟩)
    (fun _ _ _ _ _ _ _ _ _ _ => trivial) trivial h

theorem expandLine_oneLine (hmacros : Macros.OneLine macros) {left : Nat} {line : Str}
    {out : List Str} (hline : OneLine line) (h : expandLine visit macros left line = .ok out) :
    ∀ l ∈ out, OneLine l := by
  refine expandLine_output (q := OneLine) (fun _ _ _ hq _ _ => hq) ?_ hline h
  intro line first operands m hq ht hm _ b hb hc
  rcases mem_substitute hc with hc | ⟨a, ha, hc⟩
  · exact hmacros first m hm b hb hc
  · exact hq (mem_callArgs ha hc)

theorem missed_output
    (h : expandLine visit macros left line = .ok out) {n : Str}
    (hn : n ∈ missed visit macros left line) : ∃ l ∈ out, ∃ operands, tokenize l = n :: operands := by
  induction left generalizing line out with
  | zero => cases h
  | succ left ih =>
    cases ht : tokenize line with
    | nil => simp [missed, ht] at hn
    | cons first operands =>
      cases hm : macros.find? first with
      | none =>
        grind [missed, expandLine]
      | some m =>
        obtain ⟨nested, hnested, rfl, hlen⟩ := expandLine_some ht hm h
        simp only [missed, ht, hm, hlen, ne_eq, not_true, if_false] at hn
        clear h hlen
        generalize m.body = body at hn hnested
        induction body generalizing nested with
        | nil => cases hn
        | cons b rest ihb =>
          simp only [List.mapM_cons, bind_eq_ok] at hnested
          obtain ⟨part, hpart, parts, hparts, hcons⟩ := hnested
          cases hcons
          simp only [gather, hpart, Except.toBool, if_true, List.mem_append] at hn
          rcases hn with hn | hn
          · grind
          grind

section Inversion

variable {i : Nat} {raw first : Str} {rest operands : List Str} {r : List Str × Macros}

theorem processFrom_definition_ok (ht : tokenize (trim (stripComment raw)) = first :: operands)
    (hm : upper first = lit "MACRO") (h : processFrom visit i (raw :: rest) macros = .ok r) :
    ∃ name params body after expanded between,
      macroHeader (i + 1) (tokenize (stripComment raw)) = .ok (name, params) ∧
      takeBody 0 rest = some (body, after) ∧
      processFrom visit 0 body macros = .ok (expanded, between) ∧
      processFrom visit (i + body.length + 2) after
        (between.insert name ⟨name, params, expanded⟩) = .ok r := by
  rw [processFrom_definition ht hm, bind_eq_ok] at h
  obtain ⟨⟨name, params⟩, hheader, h⟩ := h
  cases hbody : takeBody 0 rest with
  | none => simp [hbody] at h
  | some p =>
    grind [bind_eq_ok]

theorem processFrom_line_ok (ht : tokenize (trim (stripComment raw)) = first :: operands)
    (hm : upper first ≠ lit "MACRO") (h : processFrom visit i (raw :: rest) macros = .ok r) :
    ∃ expanded output after,
      expandLine visit macros (expansionGuard + 1) (trim (stripComment raw)) = .ok expanded ∧
      processFrom visit (i + 1) rest macros = .ok (output, after) ∧
      r = (expanded ++ output, after) := by
  grind [processFrom_line, bind_eq_ok]

end Inversion

theorem isSome_find?_insert {t : Macros} {n : Str} (h : (t.find? n).isSome) (name : Str)
    (m : MacroDef) : ((t.insert name m).find? n).isSome := by
  rw [OrdMap.find?_insert]
  split_ifs <;> simp [h]

variable {i : Nat} {lines : List Str} {r : List Str × Macros}

theorem processFrom_grows
    (h : processFrom visit i lines macros = .ok r) {n : Str} (hn : (macros.find? n).isSome) :
    (r.2.find? n).isSome := by
  induction i, lines, macros using processFrom_induction generalizing r with
  | nil i macros =>
    grind [processFrom_nil]
  | blank i macros raw rest ht ih =>
    rw [processFrom_blank ht] at h
    exact ih h hn
  | definition i macros raw rest first operands ht hm ihbody ihrest =>
    obtain ⟨name, params, body, after, expanded, between, _, hbody, hrun, hafter⟩ :=
      processFrom_definition_ok ht hm h
    grind [isSome_find?_insert]
  | line i macros raw rest first operands ht hm ih =>
    grind [processFrom_line_ok]

theorem processFrom_settled
    (h : processFrom visit i lines macros = .ok r) : ∀ l ∈ r.1, Settled macros l := by
  induction i, lines, macros using processFrom_induction generalizing r with
  | nil i macros =>
    rw [processFrom_nil] at h
    cases h
    simp
  | blank i macros raw rest ht ih =>
    rw [processFrom_blank ht] at h
    exact ih h
  | definition i macros raw rest first operands ht hm ihbody ihrest =>
    obtain ⟨name, params, body, after, expanded, between, _, hbody, hrun, hafter⟩ :=
      processFrom_definition_ok ht hm h
    intro l hl
    obtain ⟨word, ops, hword, hnone⟩ := ihrest name params body after hbody expanded between hafter l hl
    refine ⟨word, ops, hword, ?_⟩
    by_contra hsome
    have hgrown := processFrom_grows hrun (Option.isSome_iff_ne_none.mpr hsome)
    grind [isSome_find?_insert]
  | line i macros raw rest first operands ht hm ih =>
    obtain ⟨expanded, output, after, hline, hrest, rfl⟩ := processFrom_line_ok ht hm h
    intro l hl
    rcases List.mem_append.mp hl with hl | hl
    · exact expandLine_settled hline l hl
    · exact ih hrest l hl

theorem processFrom_oneLine
    (hmacros : Macros.OneLine macros) (hlines : ∀ l ∈ lines, OneLine l)
    (h : processFrom visit i lines macros = .ok r) :
    (∀ l ∈ r.1, OneLine l) ∧ Macros.OneLine r.2 := by
  induction i, lines, macros using processFrom_induction generalizing r with
  | nil i macros =>
    grind [processFrom_nil]
  | blank i macros raw rest ht ih =>
    grind [processFrom_blank]
  | definition i macros raw rest first operands ht hm ihbody ihrest =>
    obtain ⟨name, params, body, after, expanded, between, _, hbody, hrun, hafter⟩ :=
      processFrom_definition_ok ht hm h
    obtain ⟨hmem, hmemAfter⟩ := mem_takeBody hbody
    have hinside : ∀ l ∈ body, OneLine l := by
      intro l hl
      obtain ⟨q, hq, rfl⟩ := hmem l hl
      exact oneLine_statement (hlines q (List.mem_cons_of_mem _ hq))
    obtain ⟨hexpanded, hbetween⟩ := ihbody body after hbody hmacros hinside hrun
    exact ihrest name params body after hbody expanded between (hbetween.insert name hexpanded)
      (fun l hl => hlines l (List.mem_cons_of_mem _ (hmemAfter l hl))) hafter
  | line i macros raw rest first operands ht hm ih =>
    obtain ⟨expanded, output, after, hline, hrest, rfl⟩ := processFrom_line_ok ht hm h
    obtain ⟨hout, hafter⟩ := ih hmacros (fun l hl => hlines l (List.mem_cons_of_mem _ hl)) hrest
    grind [expandLine_oneLine, oneLine_statement]

-- A name missed outside of definitions starts a line of the output.
theorem missedFrom_output
    (h : processFrom visit i lines macros = .ok r) {n : Str}
    (hn : n ∈ missedFrom visit false i lines macros) :
    ∃ l ∈ r.1, ∃ operands, tokenize l = n :: operands := by
  induction i, lines, macros using processFrom_induction generalizing r with
  | nil i macros => simp [missedFrom] at hn
  | blank i macros raw rest ht ih =>
    grind [processFrom_blank, missedFrom_blank]
  | definition i macros raw rest first operands ht hm ihbody ihrest =>
    obtain ⟨name, params, body, after, expanded, between, hheader, hbody, hrun, hafter⟩ :=
      processFrom_definition_ok ht hm h
    grind [missedFrom_definition]
  | line i macros raw rest first operands ht hm ih =>
    obtain ⟨expanded, output, after, hline, hrest, rfl⟩ := processFrom_line_ok ht hm h
    rw [missedFrom_line ht hm, hline] at hn
    rcases List.mem_append.mp hn with hn | hn
    · grind [missed_output]
    grind

end Output

end Wirth.Toolchain.Macro

import Wirth.Toolchain.Assembler.Agreement
import Wirth.Toolchain.Macro.Output
import Wirth.Toolchain.Macro.Substitution

namespace Wirth.Toolchain.Macro

open Wirth.Lib Wirth.Toolchain.Assembler

def operation (line : Str) : Option Str := (tokenize (statementOf line)).head?

structure Tight (s : Str) : Prop where
  first : ∃ c, s.head? = some c ∧ isSpace c = false
  last : ∃ c, s.getLast? = some c ∧ isSpace c = false

-- A line as the processor hands it on: without blanks around it and without a comment.
structure Plain (line : Str) : Prop where
  tight : Tight line
  noComment : ∀ c ∈ line, (c ≠ chr ';' && c ≠ chr '#') = true

section Tight

variable {s value pattern : Str}

theorem Tight.ne_nil (h : Tight s) : s ≠ [] := by
  rintro rfl
  obtain ⟨c, hc, -⟩ := h.first
  cases hc

theorem tight_trim (h : trim s ≠ []) : Tight (trim s) := by
  have hhead := (List.rdropWhile_prefix isSpace (s.dropWhile isSpace)).head h
  refine ⟨⟨_, List.head?_eq_some_head h, ?_⟩, ⟨_, List.getLast?_eq_some_getLast h, ?_⟩⟩
  · exact (congrArg isSpace hhead).trans (List.head_dropWhile_not isSpace _)
  · exact Bool.eq_false_iff.mpr (List.rdropWhile_last_not isSpace _ h)

theorem trim_of_tight (h : Tight s) : trim s = s := by
  obtain ⟨c, hc, hspace⟩ := h.first
  obtain ⟨d, hd, hspace'⟩ := h.last
  have hdrop : s.dropWhile isSpace = s := by
    cases s with
    | nil => rfl
    | cons a rest =>
      grind [List.dropWhile_cons_of_neg]
  rw [trim, hdrop, List.rdropWhile_eq_self_iff]
  grind

theorem replaceFrom_eq_nil (hvalue : value ≠ []) (h : replaceFrom pattern value 0 s = []) : s = [] := by
  cases s with
  | nil => rfl
  | cons c rest =>
    rw [replaceFrom] at h
    split_ifs at h
    · exact absurd (List.append_eq_nil_iff.mp h).1 hvalue

theorem replaceFrom_last {skip : Nat} (hvalue : Tight value)
    (hs : ∀ c, s.getLast? = some c → isSpace c = false) :
    ∀ c, (replaceFrom pattern value skip s).getLast? = some c → isSpace c = false := by
  induction s generalizing skip with
  | nil => simp [replaceFrom]
  | cons a rest ih =>
    have hrest : ∀ c, rest.getLast? = some c → isSpace c = false := by
      intro c hc
      refine hs c ?_
      rw [List.getLast?_cons, hc]
      rfl
    cases skip with
    | succ skip => exact ih hrest
    | zero =>
      rw [replaceFrom]
      split_ifs
      · 
        cases hlater : (replaceFrom pattern value (pattern.length - 1) rest).getLast? with
        | none =>
          obtain ⟨d, hd, hspace⟩ := hvalue.last
          grind
        | some d =>
          grind
      · 
        cases hlater : (replaceFrom pattern value 0 rest).getLast? with
        | none =>
          have hnil := replaceFrom_eq_nil hvalue.ne_nil (List.getLast?_eq_none_iff.mp hlater)
          grind
        | some d =>
          grind

theorem replaceAll_tight (hvalue : Tight value) (hs : Tight s) : Tight (replaceAll s pattern value) := by
  rw [replaceAll]
  split_ifs
  · exact hs
  · have hne : replaceFrom pattern value 0 s ≠ [] := fun h => hs.ne_nil (replaceFrom_eq_nil hvalue.ne_nil h)
    refine ⟨?_, ?_⟩
    · obtain ⟨c, hc, hspace⟩ := hs.first
      cases s with
      | nil => cases hc
      | cons a rest =>
        rw [replaceFrom]
        split_ifs
        · obtain ⟨d, hd, hd'⟩ := hvalue.first
          simp [hd, hd']
        · exact ⟨c, hc, hspace⟩
    · have hlast : ∀ c, s.getLast? = some c → isSpace c = false := by
        intro c hc
        obtain ⟨d, hd, hspace⟩ := hs.last
        rw [hd] at hc
        cases hc
        exact hspace
      have hgetLast := List.getLast?_eq_some_getLast hne
      grind [replaceFrom_last]

end Tight

section Plain

variable {visit : Visit} {macros : Macros} {line : Str}

theorem Plain.statement (h : Plain line) : trim (stripComment line) = line := by
  have hstrip : stripComment line = line := List.takeWhile_eq_self_iff.mpr h.noComment
  rw [hstrip, trim_of_tight h.tight]

theorem plain_statement {raw : Str} (h : trim (stripComment raw) ≠ []) : Plain (trim (stripComment raw)) := by
  refine ⟨tight_trim h, fun c hc => ?_⟩
  have hmem : c ∈ stripComment raw := mem_trim hc
  exact List.mem_takeWhile_imp (p := fun c => c ≠ chr ';' && c ≠ chr '#') hmem

theorem tight_of_mem_splitArgsFrom {quote : UInt8} {current a s : Str}
    (h : a ∈ splitArgsFrom quote current s) : Tight a := by
  have hitem : ∀ current, a ∈ argItem current → Tight a := by
    intro current ha
    rw [argItem] at ha
    split_ifs at ha with hblank
    · cases ha
    · grind [tight_trim]
  induction s generalizing quote current with
  | nil => exact hitem current h
  | cons ch rest ih =>
    grind [splitArgsFrom]

theorem plain_of_mem_callArgs {first a : Str} (h : Plain line) (ha : a ∈ callArgs first line) : Plain a := by
  refine ⟨?_, fun c hc => h.noComment c (mem_callArgs ha hc)⟩
  rw [callArgs] at ha
  split_ifs at ha
  · cases ha
  · exact tight_of_mem_splitArgsFrom ha

theorem argOf_mem {params args : List Str} {param : Str} (hlen : args.length = params.length)
    (hparam : param ∈ params) : argOf params args param ∈ args := by
  rw [argOf]
  cases hlookup : (params.zip args).reverse.lookup param with
  | some a => exact (List.of_mem_zip (List.mem_reverse.mp (mem_of_lookup hlookup))).2
  | none =>
    have hkeys : param ∈ (params.zip args).map Prod.fst := by
      rwa [List.map_fst_zip (by omega)]
    obtain ⟨p, hp, rfl⟩ := List.mem_map.mp hkeys
    grind

theorem plain_substitute {params args : List Str} {bodyLine : Str} (hlen : args.length = params.length)
    (hargs : ∀ a ∈ args, Plain a) (hbody : Plain bodyLine) : Plain (substitute visit params args bodyLine) := by
  refine ⟨?_, fun c hc => ?_⟩
  · have hkeys : ∀ param ∈ visit.keys params, Tight (argOf params args param) := by
      intro param hparam
      have hmem := List.mem_dedup.mp ((visit.perm params).mem_iff.mp hparam)
      exact (hargs _ (argOf_mem hlen hmem)).tight
    rw [substitute]
    generalize visit.keys params = keys at hkeys
    have htight := hbody.tight
    clear hbody
    induction keys generalizing bodyLine with
    | nil => exact htight
    | cons param rest ih =>
      grind [replaceAll_tight]
  · rcases mem_substitute hc with hc | ⟨a, ha, hc⟩
    · exact hbody.noComment c hc
    · exact (hargs a ha).noComment c hc

def Macros.Plain (macros : Macros) : Prop :=
  ∀ n m, macros.find? n = some m → ∀ b ∈ m.body, Macro.Plain b

theorem Macros.Plain.insert (h : Macros.Plain macros) (name : Str) {m : MacroDef}
    (hm : ∀ b ∈ m.body, Macro.Plain b) : Macros.Plain (OrdMap.insert macros name m) := by
  intro n m' hm'
  rw [OrdMap.find?_insert] at hm'
  split_ifs at hm'
  · cases hm'
    exact hm
  · exact h n m' hm'

theorem expandLine_plain (hmacros : Macros.Plain macros) {left : Nat} {out : List Str}
    (hline : Plain line) (h : expandLine visit macros left line = .ok out) : ∀ l ∈ out, Plain l := by
  refine expandLine_output (q := Plain) (fun _ _ _ hq _ _ => hq) ?_ hline h
  intro line first operands m hq _ hm hlen b hb
  exact plain_substitute hlen (fun a ha => plain_of_mem_callArgs hq ha) (hmacros first m hm b hb)

end Plain

-- The lines of the output, each with the table that it was expanded with.
section Emitted

variable (visit : Visit)

def emittedFrom (i : Nat) (lines : List Str) (macros : Macros) : List (Str × Macros) :=
  match lines with
  | [] => []
  | raw :: rest =>
      let line := trim (stripComment raw)
      match tokenize line with
      | [] => emittedFrom (i + 1) rest macros
      | first :: _ =>
          if upper first = lit "MACRO" then
            match macroHeader (i + 1) (tokenize (stripComment raw)), _hbody : takeBody 0 rest with
            | .ok (name, params), some (body, after) =>
                match processFrom visit 0 body macros with
                | .ok (expanded, macros) => emittedFrom (i + body.length + 2) after
                    (macros.insert name ⟨name, params, expanded⟩)
                | .error _ => []
            | _, _ => []
          else
            match expandLine visit macros (expansionGuard + 1) line with
            | .ok out => out.map (fun l => (l, macros)) ++ emittedFrom (i + 1) rest macros
            | .error _ => []
termination_by lines.length
decreasing_by
  all_goals
    first
    | exact takeBody_after_lt (by assumption) _
    | simp

variable {visit} {i : Nat} {raw first : Str} {rest operands : List Str} {macros : Macros}

theorem emittedFrom_blank (ht : tokenize (trim (stripComment raw)) = []) :
    emittedFrom visit i (raw :: rest) macros = emittedFrom visit (i + 1) rest macros := by
  rw [emittedFrom]
  simp only [ht]

theorem emittedFrom_definition (ht : tokenize (trim (stripComment raw)) = first :: operands)
    (hm : upper first = lit "MACRO") {name : Str} {params body after expanded : List Str}
    {between : Macros} (hheader : macroHeader (i + 1) (tokenize (stripComment raw)) = .ok (name, params))
    (hbody : takeBody 0 rest = some (body, after))
    (hrun : processFrom visit 0 body macros = .ok (expanded, between)) :
    emittedFrom visit i (raw :: rest) macros =
      emittedFrom visit (i + body.length + 2) after (between.insert name ⟨name, params, expanded⟩) := by
  rw [emittedFrom]
  grind

theorem emittedFrom_line (ht : tokenize (trim (stripComment raw)) = first :: operands)
    (hm : upper first ≠ lit "MACRO") {out : List Str}
    (hline : expandLine visit macros (expansionGuard + 1) (trim (stripComment raw)) = .ok out) :
    emittedFrom visit i (raw :: rest) macros =
      out.map (fun l => (l, macros)) ++ emittedFrom visit (i + 1) rest macros := by
  rw [emittedFrom]
  simp only [ht, hm, if_false, hline]

-- The first word of such a line was looked up in the table, and the text is what the assembler gets.
def Handed (p : Str × Macros) : Prop := Plain p.1 ∧ Settled p.2 p.1

theorem emittedFrom_spec {lines : List Str} {r : List Str × Macros} (hmacros : Macros.Plain macros)
    (h : processFrom visit i lines macros = .ok r) :
    r.1 = (emittedFrom visit i lines macros).map Prod.fst ∧ Macros.Plain r.2 ∧
      ∀ p ∈ emittedFrom visit i lines macros, Handed p := by
  induction i, lines, macros using processFrom_induction generalizing r with
  | nil i macros =>
    grind [processFrom_nil, emittedFrom]
  | blank i macros raw rest ht ih =>
    grind [processFrom_blank, emittedFrom_blank]
  | definition i macros raw rest first operands ht hm ihbody ihrest =>
    obtain ⟨name, params, body, after, expanded, between, hheader, hbody, hrun, hafter⟩ :=
      processFrom_definition_ok ht hm h
    rw [emittedFrom_definition ht hm hheader hbody hrun]
    obtain ⟨hexpanded, hbetween, hhanded⟩ := ihbody body after hbody hmacros hrun
    have hplain : ∀ b ∈ expanded, Plain b := by
      intro b hb
      rw [show expanded = List.map Prod.fst _ from hexpanded] at hb
      obtain ⟨p, hp, rfl⟩ := List.mem_map.mp hb
      exact (hhanded p hp).1
    exact ihrest name params body after hbody expanded between (hbetween.insert name hplain) hafter
  | line i macros raw rest first operands ht hm ih =>
    obtain ⟨expanded, output, after, hline, hrest, rfl⟩ := processFrom_line_ok ht hm h
    obtain ⟨houtput, hafter, hhanded⟩ := ih hmacros hrest
    rw [emittedFrom_line ht hm hline]
    have hne : trim (stripComment raw) ≠ [] := by
      intro hnil
      rw [hnil] at ht
      cases ht
    have hplain := expandLine_plain hmacros (plain_statement hne) hline
    refine ⟨?_, hafter, fun p hp => ?_⟩
    · rw [List.map_append, List.map_map, ← houtput]
      exact congrArg (· ++ output) (List.map_id _).symm
    · rcases List.mem_append.mp hp with hnow | hlater
      · obtain ⟨l, hl, rfl⟩ := List.mem_map.mp hnow
        exact ⟨hplain l hl, expandLine_settled hline l hl⟩
      · exact hhanded p hlater

end Emitted

theorem Handed.operation {p : Str × Macros} (h : Handed p) (hlabel : labelOf p.1 = []) {n : Str}
    (hn : operation p.1 = some n) : p.2.find? n = none := by
  obtain ⟨hplain, first, operands, ht, hnone⟩ := h
  rw [Macro.operation, statementOf, if_pos hlabel, hplain.statement, ht] at hn
  cases hn
  exact hnone

-- The tables that a processor can have: it starts without a macro and keeps what it has.
inductive Macros.Reached (visit : Visit) : Macros → Prop where
  | start : Reached visit OrdMap.empty
  | process {macros : Macros} {source : List Str} {r : List Str × Macros} (h : Reached visit macros)
      (hrun : processLines visit macros source = .ok r) : Reached visit r.2

theorem Macros.Reached.plain {visit : Visit} {macros : Macros} (h : Macros.Reached visit macros) :
    Macros.Plain macros := by
  induction h with
  | start =>
    intro n m hm
    cases hm
  | process _ hrun ih => exact (emittedFrom_spec ih hrun).2.1

def bumpSource (call : String) : List Str :=
  [lit "MACRO BUMP r", lit "ADD {r}, R1", lit "MEND", lit call]

def bumpTable : Macros :=
  OrdMap.empty.insert (lit "BUMP") ⟨lit "BUMP", [lit "r"], [lit "ADD {r}, R1"]⟩

end Wirth.Toolchain.Macro

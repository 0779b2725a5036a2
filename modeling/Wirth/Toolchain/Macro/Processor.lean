import Wirth.Lib.OrdMap
import Wirth.Toolchain.Util
import Mathlib.Data.List.Dedup

namespace Wirth.Toolchain.Macro

open Wirth.Lib

structure MacroDef where
  name : Str
  params : List Str
  body : List Str
  deriving DecidableEq

abbrev Macros := OrdMap Str MacroDef

-- Placeholders are replaced in the order in which an unordered map from the parameters
-- to the arguments lists its keys. All that is known of it is that it lists each key once.
structure Visit where
  keys : List Str → List Str
  perm : ∀ params, (keys params).Perm params.dedup

-- Replacement goes on after the text it has put in. The counter is the rest of an
-- occurrence that is being replaced.
def replaceFrom (pattern value : Str) : Nat → Str → Str
  | _, [] => []
  | skip + 1, _ :: rest => replaceFrom pattern value skip rest
  | 0, c :: rest =>
      if pattern.isPrefixOf (c :: rest) then
        value ++ replaceFrom pattern value (pattern.length - 1) rest
      else c :: replaceFrom pattern value 0 rest

def replaceAll (text pattern value : Str) : Str :=
  if pattern = [] then text else replaceFrom pattern value 0 text

def braced (param : Str) : Str := lit "\x7b" ++ param ++ lit "\x7d"

def dollar (param : Str) : Str := lit "$" ++ param

def argOf (params args : List Str) (param : Str) : Str :=
  ((params.zip args).reverse.lookup param).getD []

def callArgs (first line : Str) : List Str :=
  let argText := match find first line with
    | none => []
    | some pos => trim (line.drop (pos + first.length))
  if argText = [] then [] else splitArgs argText

-- The number of a line, counted from 1, stands in the message for a header without a name.
def macroHeader (lineNo : Nat) (tokens : List Str) : Result (Str × List Str) :=
  match tokens with
  | _ :: name :: [] => .ok (name, [])
  | _ :: name :: params => .ok (name, splitArgs (List.intercalate (lit " ") params))
  | _ => .error (.thrown (lit "MACRO sem nome na linha " ++ decimal lineNo))

def startsWith (word : Str) (line : Str) : Bool :=
  match tokenize line with
  | [] => false
  | first :: _ => upper first = word

-- The lines up to the `MEND` of a definition, without comments, and what follows it.
def takeBody : Nat → List Str → Option (List Str × List Str)
  | _, [] => none
  | nested, raw :: rest =>
      let line := trim (stripComment raw)
      let keep := fun p : List Str × List Str => (line :: p.1, p.2)
      if startsWith (lit "MACRO") line then (takeBody (nested + 1) rest).map keep
      else if startsWith (lit "MEND") line then
        match nested with
        | 0 => some ([], rest)
        | nested + 1 => (takeBody nested rest).map keep
      else (takeBody nested rest).map keep

variable {nested : Nat} {lines body rest : List Str}

theorem takeBody_length
    (h : takeBody nested lines = some (body, rest)) : body.length + rest.length < lines.length := by
  induction lines generalizing nested body with
  | nil => simp [takeBody] at h
  | cons raw tail ih =>
    have hkeep : ∀ n, (takeBody n tail).map (fun p => (trim (stripComment raw) :: p.1, p.2)) =
        some (body, rest) → body.length + rest.length < (raw :: tail).length := by
      intro n hn
      obtain ⟨⟨b, r⟩, hb, he⟩ := Option.map_eq_some_iff.mp hn
      cases he
      have hlt : b.length + r.length < tail.length := ih hb
      simp only [List.length_cons]
      omega
    simp only [takeBody] at h
    split_ifs at h
    · exact hkeep _ h
    · cases nested with
      | zero =>
        cases h
        simp
      | succ n => exact hkeep _ h
    · exact hkeep _ h

theorem takeBody_body_lt
    (h : takeBody nested lines = some (body, rest)) (raw : Str) :
    body.length < (raw :: lines).length := by
  have := takeBody_length h
  rw [List.length_cons]
  omega

theorem takeBody_after_lt
    (h : takeBody nested lines = some (body, rest)) (raw : Str) :
    rest.length < (raw :: lines).length := by
  have := takeBody_length h
  rw [List.length_cons]
  omega

section Expand

variable (visit : Visit)

def substitute (params args : List Str) (bodyLine : Str) : Str :=
  (visit.keys params).foldl (fun line param =>
    let arg := argOf params args param
    replaceAll (replaceAll line (braced param) arg) (dollar param) arg) bodyLine

def expansionGuard : Nat := 1024

def tooDeep : Fault :=
  .thrown (lit "expansão de macro excedeu limite (possível recursão infinita)")

def arityFault (m : MacroDef) (args : List Str) : Fault :=
  .thrown (lit "macro " ++ m.name ++ lit ": esperado " ++ decimal m.params.length ++
    lit " args, recebido " ++ decimal args.length)

def expandLine (macros : Macros) : Nat → Str → Result (List Str)
  | 0, _ => .error tooDeep
  | left + 1, line =>
      match tokenize line with
      | [] => .ok []
      | first :: _ =>
          match macros.find? first with
          | none => .ok [line]
          | some m =>
              let args := callArgs first line
              if args.length ≠ m.params.length then .error (arityFault m args)
              else do
                let nested ← m.body.mapM fun bodyLine =>
                  expandLine macros left (substitute visit m.params args bodyLine)
                .ok nested.flatten

-- The lines from number `i` on. A definition is processed like a source of its own before
-- it is entered; the table it leaves is the one that the following lines see.
def processFrom (i : Nat) (lines : List Str) (macros : Macros) : Result (List Str × Macros) :=
  match lines with
  | [] => .ok ([], macros)
  | raw :: rest =>
      let line := trim (stripComment raw)
      match tokenize line with
      | [] => processFrom (i + 1) rest macros
      | first :: _ =>
          if upper first = lit "MACRO" then do
            let (name, params) ← macroHeader (i + 1) (tokenize (stripComment raw))
            match _hbody : takeBody 0 rest with
            | none => .error (.thrown (lit "MEND ausente para macro " ++ name))
            | some (body, after) => do
                let (expanded, macros) ← processFrom 0 body macros
                processFrom (i + body.length + 2) after
                  (macros.insert name ⟨name, params, expanded⟩)
          else do
            let expanded ← expandLine visit macros (expansionGuard + 1) line
            let (output, macros) ← processFrom (i + 1) rest macros
            .ok (expanded ++ output, macros)
termination_by lines.length
decreasing_by
  all_goals
    first
    | exact takeBody_body_lt (by assumption) _
    | exact takeBody_after_lt (by assumption) _
    | simp

-- Induction along a source: over what follows a line, and over the body and what follows
-- a definition, with any table in its place.
@[elab_as_elim]
theorem processFrom_induction {motive : Nat → List Str → Macros → Prop}
    (nil : ∀ i macros, motive i [] macros)
    (blank : ∀ i macros raw rest, tokenize (trim (stripComment raw)) = [] →
      motive (i + 1) rest macros → motive i (raw :: rest) macros)
    (definition : ∀ i macros raw rest first operands,
      tokenize (trim (stripComment raw)) = first :: operands → upper first = lit "MACRO" →
      (∀ body after, takeBody 0 rest = some (body, after) → motive 0 body macros) →
      (∀ name params body after, takeBody 0 rest = some (body, after) →
        ∀ expanded (macros : Macros), motive (i + body.length + 2) after
          (macros.insert name ⟨name, params, expanded⟩)) →
      motive i (raw :: rest) macros)
    (line : ∀ i macros raw rest first operands,
      tokenize (trim (stripComment raw)) = first :: operands → upper first ≠ lit "MACRO" →
      motive (i + 1) rest macros → motive i (raw :: rest) macros)
    (i : Nat) (lines : List Str) (macros : Macros) : motive i lines macros :=
  processFrom.induct motive nil blank definition line i lines macros

section Steps

variable {visit} {i : Nat} {raw first : Str} {rest operands : List Str} {macros : Macros}

theorem processFrom_nil : processFrom visit i [] macros = .ok ([], macros) := by
  rw [processFrom]

theorem processFrom_blank (ht : tokenize (trim (stripComment raw)) = []) :
    processFrom visit i (raw :: rest) macros = processFrom visit (i + 1) rest macros := by
  rw [processFrom]
  simp only [ht]

theorem processFrom_definition (ht : tokenize (trim (stripComment raw)) = first :: operands)
    (hm : upper first = lit "MACRO") :
    processFrom visit i (raw :: rest) macros =
      macroHeader (i + 1) (tokenize (stripComment raw)) >>= fun header =>
        match takeBody 0 rest with
        | none => .error (.thrown (lit "MEND ausente para macro " ++ header.1))
        | some (body, after) => processFrom visit 0 body macros >>= fun p =>
          processFrom visit (i + body.length + 2) after
            (p.2.insert header.1 ⟨header.1, header.2, p.1⟩) := by
  rw [processFrom]
  grind

theorem processFrom_line (ht : tokenize (trim (stripComment raw)) = first :: operands)
    (hm : upper first ≠ lit "MACRO") :
    processFrom visit i (raw :: rest) macros =
      expandLine visit macros (expansionGuard + 1) (trim (stripComment raw)) >>= fun expanded =>
        processFrom visit (i + 1) rest macros >>= fun p => .ok (expanded ++ p.1, p.2) := by
  rw [processFrom]
  simp only [ht, hm, if_false]

end Steps

def processLines (macros : Macros) (sourceLines : List Str) : Result (List Str × Macros) :=
  processFrom visit 0 sourceLines macros

end Expand

def linesText : List Str → Str
  | [] => []
  | [line] => line
  | line :: rest => line ++ lit "\n" ++ linesText rest

-- A line feed between the lines, and one at the end unless there is nothing before it.
def joinLines (lines : List Str) : Str :=
  let text := linesText lines
  if text = [] then [] else text ++ lit "\n"

end Wirth.Toolchain.Macro

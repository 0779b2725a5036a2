import Wirth.Toolchain.Macro.Processor

namespace Wirth.Toolchain.Macro

open Wirth.Lib

section Gather

variable {α β : Type}

-- What a loop over the items comes across before the first one that fails.
def gather (run : α → Result β) (seen : α → List Str) : List α → List Str
  | [] => []
  | a :: rest => seen a ++ if (run a).toBool then gather run seen rest else []

theorem mapM_gather {run run' : α → Result β} {seen : α → List Str} {items : List α}
    {p : Str → Prop} (h : ∀ n ∈ gather run seen items, p n)
    (hsame : ∀ a ∈ items, (∀ n ∈ seen a, p n) → run' a = run a) :
    items.mapM run' = items.mapM run := by
  induction items with
  | nil => rfl
  | cons a rest ih =>
    simp only [gather, List.mem_append] at h
    rw [List.mapM_cons, List.mapM_cons, hsame a (by simp) fun n hn => h n (Or.inl hn)]
    cases hrun : run a with
    | error e => rfl
    | ok b =>
      have hrest : ∀ n ∈ gather run seen rest, p n := by
        intro n hn
        exact h n (Or.inr (by simpa [hrun, Except.toBool] using hn))
      grind

end Gather

variable {visit : Visit}

section Missed

variable (visit)

-- The names that the expansion of a line looks up and does not find.
def missed (macros : Macros) : Nat → Str → List Str
  | 0, _ => []
  | left + 1, line =>
      match tokenize line with
      | [] => []
      | first :: _ =>
          match macros.find? first with
          | none => [first]
          | some m =>
              let args := callArgs first line
              if args.length ≠ m.params.length then []
              else gather
                (fun bodyLine => expandLine visit macros left (substitute visit m.params args bodyLine))
                (fun bodyLine => missed macros left (substitute visit m.params args bodyLine)) m.body

-- The same for a source; the bodies of its definitions are taken in or left out.
def missedFrom (bodies : Bool) (i : Nat) (lines : List Str) (macros : Macros) : List Str :=
  match lines with
  | [] => []
  | raw :: rest =>
      let line := trim (stripComment raw)
      match tokenize line with
      | [] => missedFrom bodies (i + 1) rest macros
      | first :: _ =>
          if upper first = lit "MACRO" then
            match macroHeader (i + 1) (tokenize (stripComment raw)), _hbody : takeBody 0 rest with
            | .ok (name, params), some (body, after) =>
                (if bodies then missedFrom bodies 0 body macros else []) ++
                  match processFrom visit 0 body macros with
                  | .ok (expanded, macros) => missedFrom bodies (i + body.length + 2) after
                      (macros.insert name ⟨name, params, expanded⟩)
                  | .error _ => []
            | _, _ => []
          else
            missed visit macros (expansionGuard + 1) line ++
              if (expandLine visit macros (expansionGuard + 1) line).toBool then
                missedFrom bodies (i + 1) rest macros
              else []
termination_by lines.length
decreasing_by
  all_goals
    first
    | exact takeBody_body_lt (by assumption) _
    | exact takeBody_after_lt (by assumption) _
    | simp

end Missed

-- A table that has what another one has, and under it what is left from before.
def Over (left own shared : Macros) : Prop :=
  ∀ n, shared.find? n = (own.find? n).or (left.find? n)

theorem Over.insert {left own shared : Macros} (h : Over left own shared) (name : Str)
    (m : MacroDef) : Over left (own.insert name m) (shared.insert name m) := by
  intro n
  rw [OrdMap.find?_insert, OrdMap.find?_insert, h n]
  by_cases hn : n = name <;> simp [hn]

-- What is left from before does not matter to a line that never asks for it.
theorem expandLine_over {before own shared : Macros} (hover : Over before own shared)
    {left : Nat} {line : Str} (h : ∀ n ∈ missed visit own left line, before.find? n = none) :
    expandLine visit shared left line = expandLine visit own left line := by
  induction left generalizing line with
  | zero => rfl
  | succ left ih =>
    simp only [missed] at h
    simp only [expandLine]
    cases ht : tokenize line with
    | nil => rfl
    | cons first operands =>
      simp only [ht] at h ⊢
      rw [hover first]
      cases hm : own.find? first with
      | none =>
        simp [hm, h]
      | some m =>
        simp only [hm] at h
        simp only [Option.some_or]
        by_cases hargs : (callArgs first line).length ≠ m.params.length
        · rw [if_pos hargs, if_pos hargs]
        · rw [if_neg hargs] at h
          rw [if_neg hargs, if_neg hargs, mapM_gather h fun bodyLine _ hb => ih hb]

section MissedSteps

variable {bodies : Bool} {i : Nat} {raw first : Str} {rest operands : List Str} {macros : Macros}

theorem missedFrom_blank (ht : tokenize (trim (stripComment raw)) = []) :
    missedFrom visit bodies i (raw :: rest) macros = missedFrom visit bodies (i + 1) rest macros := by
  rw [missedFrom]
  simp only [ht]

theorem missedFrom_definition (ht : tokenize (trim (stripComment raw)) = first :: operands)
    (hm : upper first = lit "MACRO") {name : Str} {params body after : List Str}
    (hheader : macroHeader (i + 1) (tokenize (stripComment raw)) = .ok (name, params))
    (hbody : takeBody 0 rest = some (body, after)) :
    missedFrom visit bodies i (raw :: rest) macros =
      (if bodies then missedFrom visit bodies 0 body macros else []) ++
        match processFrom visit 0 body macros with
        | .ok (expanded, macros) => missedFrom visit bodies (i + body.length + 2) after
            (macros.insert name ⟨name, params, expanded⟩)
        | .error _ => [] := by
  rw [missedFrom]
  grind

theorem missedFrom_line (ht : tokenize (trim (stripComment raw)) = first :: operands)
    (hm : upper first ≠ lit "MACRO") :
    missedFrom visit bodies i (raw :: rest) macros =
      missed visit macros (expansionGuard + 1) (trim (stripComment raw)) ++
        if (expandLine visit macros (expansionGuard + 1) (trim (stripComment raw))).toBool then
          missedFrom visit bodies (i + 1) rest macros
        else [] := by
  rw [missedFrom]
  simp only [ht, hm, if_false]

end MissedSteps

def SameRun (before : Macros) : Result (List Str × Macros) → Result (List Str × Macros) → Prop
  | .ok own, .ok shared => own.1 = shared.1 ∧ Over before own.2 shared.2
  | .error e, .error e' => e = e'
  | _, _ => False

variable {before : Macros} {own shared : Result (List Str × Macros)}

theorem SameRun.bind
    {f g : List Str × Macros → Result (List Str × Macros)} (h : SameRun before own shared)
    (hnext : ∀ out t t', own = .ok (out, t) → Over before t t' →
      SameRun before (f (out, t)) (g (out, t'))) :
    SameRun before (own >>= f) (shared >>= g) := by
  rcases own with e | ⟨out, t⟩ <;> rcases shared with e' | ⟨out', t'⟩
  · exact h
  · exact h.elim
  · exact h.elim
  · obtain ⟨hout, hover⟩ := h
    cases hout
    exact hnext out t t' rfl hover

theorem SameRun.output_iff
    (h : SameRun before own shared) (out : List Str) :
    (∃ after, shared = .ok (out, after)) ↔ ∃ after, own = .ok (out, after) := by
  rcases own with e | ⟨out', t⟩ <;> rcases shared with e' | ⟨out'', t'⟩
  · simp
  · exact h.elim
  · exact h.elim
  · obtain ⟨hout, _⟩ := h
    cases hout
    simp

theorem processFrom_over {before own shared : Macros} {i : Nat} {lines : List Str}
    (hover : Over before own shared)
    (h : ∀ n ∈ missedFrom visit true i lines own, before.find? n = none) :
    SameRun before (processFrom visit i lines own) (processFrom visit i lines shared) := by
  induction i, lines, own using processFrom_induction generalizing shared with
  | nil i own =>
    simpa [processFrom_nil] using ⟨rfl, hover⟩
  | blank i own raw rest ht ih =>
    grind [missedFrom_blank, processFrom_blank]
  | definition i own raw rest first operands ht hm ihbody ihrest =>
    rw [processFrom_definition ht hm, processFrom_definition ht hm]
    cases hheader : macroHeader (i + 1) (tokenize (stripComment raw)) with
    | error e => exact rfl
    | ok header =>
      obtain ⟨name, params⟩ := header
      cases hbody : takeBody 0 rest with
      | none => exact rfl
      | some p =>
        obtain ⟨body, after⟩ := p
        rw [missedFrom_definition ht hm hheader hbody] at h
        simp only [if_true, List.mem_append] at h
        refine (ihbody body after hbody hover fun n hn => h n (Or.inl hn)).bind ?_
        intro out t t' hrun hover'
        refine ihrest name params body after hbody out t (hover'.insert _ _) ?_
        grind
  | line i own raw rest first operands ht hm ih =>
    rw [missedFrom_line ht hm] at h
    simp only [List.mem_append] at h
    rw [processFrom_line ht hm, processFrom_line ht hm,
      expandLine_over hover fun n hn => h n (Or.inl hn)]
    cases hrun : expandLine visit own (expansionGuard + 1) (trim (stripComment raw)) with
    | error e => exact rfl
    | ok expanded =>
      rw [hrun] at h
      refine (ih hover fun n hn => h n (Or.inr hn)).bind ?_
      intro out t t' _ hover'
      exact ⟨rfl, hover'⟩

end Wirth.Toolchain.Macro

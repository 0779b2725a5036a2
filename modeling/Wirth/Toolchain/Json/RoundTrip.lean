import Wirth.Toolchain.Json.Scan

namespace Wirth.Toolchain.Json

open Wirth.Lib

variable {D : Type} [Floating D]

theorem parseValue_skipWs (fuel : Nat) (s : Str) :
    parseValue (D := D) fuel (skipWs s) = parseValue fuel s := by
  cases fuel with
  | zero => simp only [parseValue]
  | succ fuel => simp only [parseValue, skipWs_skipWs]

theorem parseItems_skipWs (fuel : Nat) (items : List (Value D)) (s : Str) :
    parseItems fuel items (skipWs s) = parseItems fuel items s := by
  cases fuel with
  | zero => simp only [parseItems]
  | succ fuel => simp only [parseItems, parseValue_skipWs]

theorem parseMembers_skipWs (fuel : Nat) (members : List (Str × Value D)) (s : Str) :
    parseMembers fuel members (skipWs s) = parseMembers fuel members s := by
  cases fuel with
  | zero => simp only [parseMembers]
  | succ fuel => simp only [parseMembers, skipWs_skipWs]

theorem parseValue_indent (fuel n : Nat) (s : Str) :
    parseValue (D := D) fuel (indent n ++ s) = parseValue fuel s := by
  rw [← parseValue_skipWs, skipWs_indent, parseValue_skipWs]

theorem decimal_head (x : Int) :
    ∃ c t, decimal x = c :: t ∧ (c = chr '-' ∨ isDigit c = true) := by
  obtain ⟨c, t, hc⟩ := List.exists_cons_of_ne_nil (decimalNat_ne_nil x.natAbs)
  by_cases hneg : x < 0
  · simp [decimal, hneg]
  · refine ⟨c, t, by rw [decimal, if_neg hneg, hc], Or.inr ?_⟩
    grind [decimalNat_isDigit]

theorem numeric_ne {c d : UInt8} (h : c = chr '-' ∨ isDigit c = true) (hm : d ≠ chr '-')
    (hd : isDigit d = false) : c ≠ d := by
  grind

theorem numeric_not_space {c : UInt8} (h : c = chr '-' ∨ isDigit c = true) :
    isSpace c = false := by
  rcases h with rfl | h
  · decide
  · exact isSpace_of_isDigit h

theorem parseValue_numeric (fuel : Nat) {c : UInt8} (t : Str)
    (hc : c = chr '-' ∨ isDigit c = true) :
    parseValue (D := D) (fuel + 1) (c :: t) = parseNumber (c :: t) := by
  have hpeek : peek (c :: t) = c := rfl
  simp only [parseValue, skipWs_of_head t (numeric_not_space hc), hpeek]
  iterate 6 rw [if_neg (numeric_ne hc (by decide) (by decide))]

-- No value is written with a blank or a closing bracket in front.
theorem dumpAt_head (step depth : Nat) {v : Value D} (hv : v.Built) :
    ∃ c t, dumpAt step depth v = c :: t ∧ isSpace c = false ∧ c ≠ chr ']' := by
  cases hv with
  | null => exact ⟨_, _, rfl, by decide, by decide⟩
  | bool b => cases b <;> exact ⟨_, _, rfl, by decide, by decide⟩
  | int v =>
    obtain ⟨c, t, hct, hc⟩ := decimal_head v.toInt
    refine ⟨c, t, by rw [dumpAt, hct], numeric_not_space hc, ?_⟩
    exact numeric_ne hc (by decide) (by decide)
  | str s => exact ⟨chr '"', _, by rw [dumpAt, quoted], by decide, by decide⟩
  | @arr items h =>
    cases items with
    | nil => exact ⟨_, _, rfl, by decide, by decide⟩
    | cons v rest => exact ⟨chr '[', _, by rfl, by decide, by decide⟩
  | @obj members hs h =>
    cases members with
    | nil => exact ⟨_, _, rfl, by decide, by decide⟩
    | cons p rest => exact ⟨chr '\x7b', _, by rfl, by decide, by decide⟩

theorem parseValue_array (fuel : Nat) (s : Str) (h : peek (skipWs s) ≠ chr ']') :
    parseValue (D := D) (fuel + 1) (chr '[' :: s) =
      (parseItems fuel [] s >>= fun r => .ok (.arr r.1, r.2)) := by
  have hskip : skipWs (chr '[' :: s) = chr '[' :: s := skipWs_of_head s (by decide)
  have hpeek : peek (chr '[' :: s) = chr '[' := rfl
  simp only [parseValue, hskip, hpeek, if_neg (show chr '[' ≠ chr '\x7b' by decide), if_true,
    expect, get, ok_bind, ne_eq, not_true_eq_false, if_false, if_neg h, parseItems_skipWs]

theorem parseValue_object (fuel : Nat) (s : Str) (h : peek (skipWs s) ≠ chr '\x7d') :
    parseValue (D := D) (fuel + 1) (chr '\x7b' :: s) =
      (parseMembers fuel [] s >>= fun r => .ok (.obj r.1, r.2)) := by
  have hskip : skipWs (chr '\x7b' :: s) = chr '\x7b' :: s := skipWs_of_head s (by decide)
  have hpeek : peek (chr '\x7b' :: s) = chr '\x7b' := rfl
  simp only [parseValue, hskip, hpeek, if_true, expect, get, ok_bind, ne_eq, not_true_eq_false,
    if_false, if_neg h, parseMembers_skipWs]

-- The parser, given enough fuel, reads a value back from what is written for it.
def ReadsBack (step depth : Nat) (v : Value D) : Prop :=
  ∀ fuel rest, Delimited rest → 2 * (dumpAt step depth v).length ≤ fuel →
    parseValue fuel (dumpAt step depth v ++ rest) = .ok (v, rest)

theorem separator_delimited (last : Bool) (s : Str) :
    Delimited ((if last then lit "\n" else lit ",\n") ++ s) := by
  have hpeek : peek ((if last then lit "\n" else lit ",\n") ++ s) =
      if last then chr '\n' else chr ',' := by cases last <;> rfl
  rw [Delimited, hpeek]
  cases last <;> decide

theorem skipWs_comma (s : Str) : skipWs (lit ",\n" ++ s) = chr ',' :: (lit "\n" ++ s) :=
  skipWs_of_head _ (by decide)

theorem skipWs_closing (closing : Nat) {c : UInt8} (rest : Str) (hc : isSpace c = false) :
    skipWs (lit "\n" ++ (indent closing ++ c :: rest)) = c :: rest := by
  rw [skipWs_append _ _ (by decide), skipWs_indent, skipWs_of_head _ hc]

theorem parseItems_dumpItems (step depth closing : Nat) (items : List (Value D))
    (hne : items ≠ []) (ih : ∀ v ∈ items, ReadsBack step depth v) (fuel : Nat)
    (done : List (Value D)) (rest : Str)
    (hfuel : 2 * (dumpItems step depth items).length ≤ fuel) :
    parseItems fuel done (dumpItems step depth items ++ (indent closing ++ chr ']' :: rest)) =
      .ok (done ++ items, rest) := by
  induction items generalizing fuel done with
  | nil => exact absurd rfl hne
  | cons v tail ihTail =>
    have hv := ih v (by simp)
    have hlen : 1 ≤ (if tail.isEmpty then lit "\n" else lit ",\n").length := by
      split_ifs <;> decide
    simp only [dumpItems, List.length_append, List.append_assoc] at hfuel ⊢
    obtain ⟨fuel, rfl⟩ : ∃ n, fuel = n + 1 := ⟨fuel - 1, by omega⟩
    rw [parseItems, parseValue_indent, hv fuel _ (separator_delimited _ _) (by omega), ok_bind]
    cases tail with
    | nil =>
      have hskip := skipWs_closing closing rest (show isSpace (chr ']') = false by decide)
      simp only [List.isEmpty_nil, if_true, dumpItems, List.nil_append, hskip, get, ok_bind]
    | cons w tail =>
      simp only [List.isEmpty_cons, Bool.false_eq_true, if_false, skipWs_comma, get, ok_bind,
        if_neg (show chr ',' ≠ chr ']' by decide), ne_eq, not_true_eq_false]
      rw [skipWs_append _ _ (by decide), parseItems_skipWs,
        ihTail (by simp) (fun v hv => ih v (List.mem_cons_of_mem _ hv)) _ _ (by omega)]
      simp

theorem parseMembers_dumpMembers (step depth closing : Nat) (members : List (Str × Value D))
    (hne : members ≠ []) (ih : ∀ p ∈ members, ReadsBack step depth p.2)
    (hhead : ∀ p ∈ members, p.2.Built) (fuel : Nat) (done : List (Str × Value D)) (rest : Str)
    (hs : SortedKeys (done ++ members))
    (hfuel : 2 * (dumpMembers step depth members).length ≤ fuel) :
    parseMembers fuel done
        (dumpMembers step depth members ++ (indent closing ++ chr '\x7d' :: rest)) =
      .ok (done ++ members, rest) := by
  induction members generalizing fuel done with
  | nil => exact absurd rfl hne
  | cons p tail ihTail =>
    rcases p with ⟨key, v⟩
    have hv : ReadsBack step depth v := ih (key, v) (by simp)
    have hlen : 1 ≤ (if tail.isEmpty then lit "\n" else lit ",\n").length := by
      split_ifs <;> decide
    obtain ⟨c, t, hct, hc, _⟩ := dumpAt_head step depth (hhead (key, v) (by simp))
    have hplace : emplaceEntry key v done = done ++ [(key, v)] :=
      emplaceEntry_of_lt key v done fun q hq =>
        (List.pairwise_append.mp hs).2.2 q hq (key, v) (by simp)
    simp only [dumpMembers, List.length_append, List.append_assoc] at hfuel ⊢
    obtain ⟨fuel, rfl⟩ : ∃ n, fuel = n + 1 := ⟨fuel - 1, by omega⟩
    have hkey : ∀ s, skipWs (quoted key ++ s) = quoted key ++ s := fun s =>
      skipWs_of_head _ (by decide)
    have hcolon : ∀ s, skipWs (lit ": " ++ s) = chr ':' :: (lit " " ++ s) := fun s =>
      skipWs_of_head _ (by decide)
    have hvalue : ∀ s, skipWs (lit " " ++ (dumpAt step depth v ++ s)) =
        dumpAt step depth v ++ s := by
      intro s
      rw [skipWs_append _ _ (by decide), hct]
      exact skipWs_of_head _ hc
    rw [parseMembers, skipWs_indent, hkey, parseString_quoted, ok_bind]
    simp only [hcolon, expect, get, ok_bind, ne_eq, not_true_eq_false, if_false, hvalue]
    rw [hv fuel _ (separator_delimited _ _) (by omega), ok_bind, hplace]
    cases tail with
    | nil =>
      have hskip := skipWs_closing closing rest (show isSpace (chr '\x7d') = false by decide)
      simp only [List.isEmpty_nil, if_true, dumpMembers, List.nil_append, hskip, ok_bind]
    | cons q tail =>
      simp only [List.isEmpty_cons, Bool.false_eq_true, if_false, skipWs_comma, ok_bind,
        if_neg (show chr ',' ≠ chr '\x7d' by decide), not_true_eq_false]
      rw [skipWs_append _ _ (by decide), parseMembers_skipWs,
        ihTail (by simp) (fun p hp => ih p (List.mem_cons_of_mem _ hp))
          (fun p hp => hhead p (List.mem_cons_of_mem _ hp)) _ _ (by simpa using hs) (by omega)]
      simp

theorem bracketed_text {opening closing : Str} {a b : UInt8} (ha : opening = a :: lit "\n") (hb : closing = [b])
    (body tail rest : Str) :
    opening ++ body ++ tail ++ closing ++ rest = a :: (lit "\n" ++ (body ++ (tail ++ b :: rest))) := by
  rw [ha, hb]
  simp only [List.append_assoc, List.cons_append, List.nil_append]

-- By induction on how the value is built. An array or object spends its brackets on
-- the fuel for the loop, and each separator pays for the next round of the loop.
theorem built_readsBack (step : Nat) {v : Value D} (hv : v.Built) :
    ∀ depth, ReadsBack step depth v := by
  induction hv with
  | null =>
    intro depth fuel rest _ hfuel
    obtain ⟨fuel, rfl⟩ : ∃ n, fuel = n + 1 := ⟨fuel - 1, by
      have h : (dumpAt step depth (.null : Value D)).length = 4 := by rfl
      omega⟩
    rfl
  | bool b =>
    intro depth fuel rest _ hfuel
    obtain ⟨fuel, rfl⟩ : ∃ n, fuel = n + 1 := ⟨fuel - 1, by
      have h : 4 ≤ (dumpAt step depth (.bool b : Value D)).length := by
        cases b <;> (rw [dumpAt]; decide)
      omega⟩
    cases b <;> rfl
  | int v =>
    intro depth fuel rest hrest hfuel
    obtain ⟨c, t, hct, hc⟩ := decimal_head v.toInt
    have hread := parseNumber_decimal (D := D) v rest hrest
    rw [dumpAt] at hfuel ⊢
    rw [hct] at hfuel hread ⊢
    obtain ⟨fuel, rfl⟩ : ∃ n, fuel = n + 1 := ⟨fuel - 1, by
      rw [List.length_cons] at hfuel
      omega⟩
    grind [parseValue_numeric]
  | str s =>
    intro depth fuel rest _ hfuel
    obtain ⟨fuel, rfl⟩ : ∃ n, fuel = n + 1 := ⟨fuel - 1, by
      grind [dumpAt, quoted]⟩
    have hskip : skipWs (quoted s ++ rest) = quoted s ++ rest := skipWs_of_head _ (by decide)
    have hpeek : peek (quoted s ++ rest) = chr '"' := rfl
    simp only [dumpAt, parseValue, hskip, hpeek, parseString_quoted]
    rfl
  | @arr items h ih =>
    intro depth fuel rest _ hfuel
    cases items with
    | nil =>
      obtain ⟨fuel, rfl⟩ : ∃ n, fuel = n + 1 := ⟨fuel - 1, by
        have hl : (dumpAt step depth (.arr [] : Value D)).length = 2 := by rfl
        omega⟩
      rfl
    | cons v tail =>
      simp only [dumpAt, List.isEmpty_cons, Bool.false_eq_true, if_false] at hfuel ⊢
      have hl : (lit "[\n").length = 2 := by decide
      simp only [List.length_append, hl] at hfuel
      obtain ⟨fuel, rfl⟩ : ∃ n, fuel = n + 1 := ⟨fuel - 1, by omega⟩
      obtain ⟨c, t, hct, hc, hclose⟩ := dumpAt_head step (depth + step) (h v (by simp))
      have htext : lit "[\n" ++ dumpItems step (depth + step) (v :: tail) ++ indent depth ++
          lit "]" ++ rest = chr '[' :: (lit "\n" ++ (dumpItems step (depth + step) (v :: tail) ++
            (indent depth ++ chr ']' :: rest))) := bracketed_text (by decide) (by decide) _ _ _
      have hpeek : peek (skipWs (lit "\n" ++ (dumpItems step (depth + step) (v :: tail) ++
          (indent depth ++ chr ']' :: rest)))) ≠ chr ']' := by
        rw [skipWs_append _ _ (by decide), dumpItems, hct]
        simp only [List.append_assoc, skipWs_indent, List.cons_append]
        rw [skipWs_of_head _ hc]
        exact hclose
      rw [htext, parseValue_array fuel _ hpeek, ← parseItems_skipWs,
        skipWs_append _ _ (by decide), parseItems_skipWs,
        parseItems_dumpItems step (depth + step) depth (v :: tail) (by simp)
          (fun v hv => ih v hv (depth + step)) fuel [] rest (by omega)]
      rfl
  | @obj members hs h ih =>
    intro depth fuel rest _ hfuel
    cases members with
    | nil =>
      obtain ⟨fuel, rfl⟩ : ∃ n, fuel = n + 1 := ⟨fuel - 1, by
        have hl : (dumpAt step depth (.obj [] : Value D)).length = 2 := by rfl
        omega⟩
      rfl
    | cons p tail =>
      simp only [dumpAt, List.isEmpty_cons, Bool.false_eq_true, if_false] at hfuel ⊢
      have hl : (lit "\x7b\n").length = 2 := by decide
      simp only [List.length_append, hl] at hfuel
      obtain ⟨fuel, rfl⟩ : ∃ n, fuel = n + 1 := ⟨fuel - 1, by omega⟩
      have htext : lit "\x7b\n" ++ dumpMembers step (depth + step) (p :: tail) ++
          indent depth ++ lit "\x7d" ++ rest = chr '\x7b' :: (lit "\n" ++
            (dumpMembers step (depth + step) (p :: tail) ++
              (indent depth ++ chr '\x7d' :: rest))) := bracketed_text (by decide) (by decide) _ _ _
      have hpeek : peek (skipWs (lit "\n" ++ (dumpMembers step (depth + step) (p :: tail) ++
          (indent depth ++ chr '\x7d' :: rest)))) ≠ chr '\x7d' := by
        rw [skipWs_append _ _ (by decide), dumpMembers, quoted]
        simp only [List.append_assoc, skipWs_indent, List.cons_append]
        exact (show chr '"' ≠ chr '\x7d' by decide)
      rw [htext, parseValue_object fuel _ hpeek, ← parseMembers_skipWs,
        skipWs_append _ _ (by decide), parseMembers_skipWs,
        parseMembers_dumpMembers step (depth + step) depth (p :: tail) (by simp)
          (fun p hp => ih p hp (depth + step)) h fuel [] rest (by simpa using hs) (by omega)]
      rfl

theorem parseText_dump_of_built {v : Value D} (hv : v.Built) : parseText (dump v) = .ok v := by
  have hend : Delimited [] := ⟨by decide, by decide, by decide, by decide⟩
  have hread := built_readsBack 2 hv 0 (2 * (dump v).length + 2) [] hend (by
    rw [dump]
    omega)
  rw [List.append_nil, ← dump] at hread
  rw [parseText, parseValue_skipWs, hread]
  rfl

end Wirth.Toolchain.Json

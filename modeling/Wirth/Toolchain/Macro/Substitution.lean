import Wirth.Lib.Template
import Wirth.Toolchain.Macro.Processor

namespace Wirth.Toolchain.Macro

open Wirth.Lib

-- What substitution is meant to be: the placeholders of a line are found once, and each is replaced
-- by its argument.

structure Hole where
  braces : Bool
  param : Str
  deriving DecidableEq

def Hole.pattern (h : Hole) : Str := if h.braces then braced h.param else dollar h.param

def holes (params : List Str) : List Hole :=
  params.map (fun p => ⟨true, p⟩) ++ params.map fun p => ⟨false, p⟩

def longest : List Hole → Option Hole
  | [] => none
  | h :: rest =>
      match longest rest with
      | none => some h
      | some h' => if h'.pattern.length ≤ h.pattern.length then some h else some h'

def placeholderAt (params : List Str) (text : Str) : Option Hole :=
  longest ((holes params).filter fun h => h.pattern.isPrefixOf text)

def scanFrom (params : List Str) : Nat → Str → List (Piece UInt8 Hole)
  | _, [] => []
  | skip + 1, _ :: rest => scanFrom params skip rest
  | 0, c :: rest =>
      match placeholderAt params (c :: rest) with
      | none => .char c :: scanFrom params 0 rest
      | some h => .hole h :: scanFrom params (h.pattern.length - 1) rest

def simultaneous (params args : List Str) (line : Str) : Str :=
  fill (fun h => argOf params args h.param) (scanFrom params 0 line)

-- Every placeholder begins with one of two characters.

def dollarSign : UInt8 := 36

def openBrace : UInt8 := 123

def Hole.mark (h : Hole) : UInt8 := if h.braces then openBrace else dollarSign

def Hole.tail (h : Hole) : Str := if h.braces then h.param ++ [125] else h.param

theorem Hole.pattern_eq (h : Hole) : h.pattern = h.mark :: h.tail := by
  obtain ⟨braces, param⟩ := h
  cases braces <;> rfl

theorem Hole.pattern_ne_nil (h : Hole) : h.pattern ≠ [] := by
  rw [h.pattern_eq]
  nofun

theorem mem_holes {params : List Str} {h : Hole} : h ∈ holes params ↔ h.param ∈ params := by
  obtain ⟨braces, param⟩ := h
  cases braces <;> simp [holes]

section Longest

theorem longest_eq_none {hs : List Hole} (h : longest hs = none) : hs = [] := by
  cases hs with
  | nil => rfl
  | cons first rest =>
    grind [longest]

theorem longest_eq_some {hs : List Hole} {h : Hole} (hlongest : longest hs = some h) :
    h ∈ hs ∧ ∀ h' ∈ hs, h'.pattern.length ≤ h.pattern.length := by
  induction hs generalizing h with
  | nil => cases hlongest
  | cons first rest ih =>
    rw [longest] at hlongest
    cases hrest : longest rest with
    | none =>
      rw [hrest] at hlongest
      cases hlongest
      rw [longest_eq_none hrest]
      simp
    | some found =>
      grind

variable {params : List Str} {text : Str} {h h' : Hole}

theorem placeholderAt_none (hnone : placeholderAt params text = none) (hh : h ∈ holes params) :
    ¬h.pattern <+: text := by
  have hempty := longest_eq_none hnone
  grind [List.filter_eq_nil_iff]

theorem placeholderAt_some (hsome : placeholderAt params text = some h) :
    h ∈ holes params ∧ h.pattern <+: text ∧
      ∀ h' ∈ holes params, h'.pattern <+: text → h'.pattern.length ≤ h.pattern.length := by
  obtain ⟨hmem, hmax⟩ := longest_eq_some hsome
  grind

end Longest

-- What a scan leaves: placeholders that are the longest where they stand, and characters at which
-- none begins.
def Scanned (params : List Str) : List (Piece UInt8 Hole) → Prop
  | [] => True
  | .char c :: pieces =>
      (∀ h ∈ holes params, ¬h.pattern <+: c :: fill Hole.pattern pieces) ∧ Scanned params pieces
  | .hole h :: pieces =>
      h ∈ holes params ∧ (∀ h' ∈ holes params, h'.pattern <+: h.pattern ++ fill Hole.pattern pieces →
        h'.pattern.length ≤ h.pattern.length) ∧ Scanned params pieces

theorem Hole.drop_after {h : Hole} {c : UInt8} {rest : Str} (hstarts : h.pattern <+: c :: rest) :
    h.pattern ++ rest.drop (h.pattern.length - 1) = c :: rest := by
  obtain ⟨after, hafter⟩ := hstarts
  rw [h.pattern_eq, List.cons_append, List.cons.injEq] at hafter
  rw [h.pattern_eq, List.length_cons, Nat.add_sub_cancel, ← hafter.1, ← hafter.2, List.drop_left]
  rfl

theorem scanFrom_fill (params : List Str) (skip : Nat) (text : Str) :
    fill Hole.pattern (scanFrom params skip text) = text.drop skip := by
  induction text generalizing skip with
  | nil => cases skip <;> rfl
  | cons c rest ih =>
    cases skip with
    | succ skip => exact ih skip
    | zero =>
      rw [scanFrom]
      cases hat : placeholderAt params (c :: rest) with
      | none =>
        dsimp only [fill]
        rw [ih]
        rfl
      | some h =>
        simpa [fill, ih] using Hole.drop_after (placeholderAt_some hat).2.1

theorem scanFrom_scanned (params : List Str) (skip : Nat) (text : Str) :
    Scanned params (scanFrom params skip text) := by
  induction text generalizing skip with
  | nil => cases skip <;> trivial
  | cons c rest ih =>
    cases skip with
    | succ skip => exact ih skip
    | zero =>
      rw [scanFrom]
      cases hat : placeholderAt params (c :: rest) with
      | none =>
        refine ⟨fun h hh => ?_, ih 0⟩
        grind [scanFrom_fill, placeholderAt_none]
      | some h =>
        obtain ⟨hmem, hstarts, hmax⟩ := placeholderAt_some hat
        refine ⟨hmem, fun h' hh' => ?_, ih _⟩
        grind [scanFrom_fill, Hole.drop_after]

-- How replacing goes through a text.

section Replace

variable {pattern value rest : Str}

theorem replaceFrom_skip (pattern value : Str) (skip : Nat) (text : Str) :
    replaceFrom pattern value skip text = replaceFrom pattern value 0 (text.drop skip) := by
  induction text generalizing skip with
  | nil => cases skip <;> rfl
  | cons c rest ih =>
    cases skip with
    | zero => rfl
    | succ skip => exact ih skip

theorem replaceFrom_match (hne : pattern ≠ []) :
    replaceFrom pattern value 0 (pattern ++ rest) = value ++ replaceFrom pattern value 0 rest := by
  cases pattern with
  | nil => exact absurd rfl hne
  | cons c tail =>
    rw [List.cons_append, replaceFrom, if_pos]
    · rw [replaceFrom_skip, List.length_cons, Nat.add_sub_cancel, List.drop_left]
    simp

theorem replaceFrom_pass {before : Str}
    (h : ∀ s, s <:+ before → s ≠ [] → ¬pattern <+: s ++ rest) :
    replaceFrom pattern value 0 (before ++ rest) = before ++ replaceFrom pattern value 0 rest := by
  induction before with
  | nil => rfl
  | cons c before ih =>
    have hfirst := h (c :: before) (List.suffix_refl _) nofun
    rw [List.cons_append, replaceFrom, if_neg (by rw [List.isPrefixOf_iff_prefix]; exact hfirst),
      ih fun s hs hne => h s (hs.trans (List.suffix_cons c before)) hne, List.cons_append]

end Replace

-- A line in which no placeholder can come about that was not there: none is the beginning of
-- another one, and what stands between two of them is not the beginning of one.
def Steady (params : List Str) : List (Piece UInt8 Hole) → Prop
  | [] => True
  | .char c :: pieces =>
      (hasHole pieces = true → ∀ h ∈ holes params, ¬c :: lead pieces <+: h.pattern) ∧
        Steady params pieces
  | .hole h :: pieces =>
      (∀ h' ∈ holes params, h' ≠ h → ¬h'.pattern <+: h.pattern) ∧
        (hasHole pieces = true → ∀ h' ∈ holes params, h' ≠ h →
          ¬h.pattern ++ lead pieces <+: h'.pattern) ∧
        Steady params pieces

def PlainName (param : Str) : Prop := dollarSign ∉ param ∧ openBrace ∉ param

instance (param : Str) : Decidable (PlainName param) := inferInstanceAs (Decidable (_ ∧ _))

instance decidableSteady (params : List Str) :
    (pieces : List (Piece UInt8 Hole)) → Decidable (Steady params pieces)
  | [] => inferInstanceAs (Decidable True)
  | .char _ :: pieces =>
      have := decidableSteady params pieces
      inferInstanceAs (Decidable (_ ∧ _))
  | .hole _ :: pieces =>
      have := decidableSteady params pieces
      inferInstanceAs (Decidable (_ ∧ _ ∧ _))

theorem mark_notMem_tail {h h' : Hole} (hplain : PlainName h.param) : h'.mark ∉ h.tail := by
  obtain ⟨braces, param⟩ := h
  obtain ⟨hdollar, hbrace⟩ := hplain
  have hmark : h'.mark ∉ param := by
    unfold Hole.mark
    split_ifs
    · exact hbrace
    · exact hdollar
  cases braces with
  | false => exact hmark
  | true =>
    rw [Hole.tail, if_pos rfl, List.mem_append, not_or, List.mem_singleton]
    refine ⟨hmark, ?_⟩
    unfold Hole.mark
    split_ifs <;> decide

-- One kind of placeholder is replaced, and all the rest is left as it is.
theorem replaceFrom_fill {params : List Str} {pieces : List (Piece UInt8 Hole)} {text : Hole → Str}
    {h : Hole} {value : Str} (hh : h ∈ holes params) (hscanned : Scanned params pieces)
    (hsteady : Steady params pieces) (hplain : ∀ p ∈ params, PlainName p)
    (hopen : text h = h.pattern)
    (htext : ∀ h', h' ≠ h → text h' = h'.pattern ∨ Quiet h.pattern (text h')) :
    replaceFrom h.pattern value 0 (fill text pieces) = fill (Function.update text h value) pieces := by
  induction pieces with
  | nil => rfl
  | cons piece pieces ih =>
    cases piece with
    | char c =>
      obtain ⟨hnone, hscanned⟩ := hscanned
      obtain ⟨hmore, hsteady⟩ := hsteady
      have hlead : ¬h.pattern <+: [c] ++ lead pieces := fun hp =>
        hnone h hh (hp.trans ((List.prefix_cons_inj c).2 (lead_prefix_fill _ _)))
      have hpass : ¬h.pattern <+: [c] ++ fill text pieces :=
        not_prefix_fill hlead (fun hmany => hmore hmany h hh) text
      rw [fill, fill, replaceFrom, if_neg, ih hscanned hsteady]
      rw [List.isPrefixOf_iff_prefix]
      exact hpass
    | hole h' =>
      obtain ⟨hmem, hmax, hscanned⟩ := hscanned
      obtain ⟨hbegin, hmore, hsteady⟩ := hsteady
      have hrest := ih hscanned hsteady
      rw [fill, fill]
      by_cases heq : h' = h
      · subst heq
        rw [hopen, Function.update_self, replaceFrom_match h'.pattern_ne_nil, hrest]
      rw [Function.update_of_ne heq]
      rcases htext h' heq with hpattern | hquiet
      · rw [hpattern, replaceFrom_pass, hrest]
        intro s hs hne
        rw [h'.pattern_eq, List.suffix_cons_iff, ← h'.pattern_eq] at hs
        rcases hs with rfl | hs
        · have hlead : ¬h.pattern <+: h'.pattern ++ lead pieces := by
            intro hp
            have hle := hmax h hh (hp.trans ((List.prefix_append_right_inj _).2 (lead_prefix_fill _ _)))
            have hbefore := List.prefix_of_prefix_length_le hp (List.prefix_append _ _) hle
            exact hbegin h hh (Ne.symm heq) hbefore
          exact not_prefix_fill hlead (fun hmany => hmore hmany h hh (Ne.symm heq)) text
        · -- inside of a placeholder none begins
          obtain ⟨c, s, rfl⟩ := List.exists_cons_of_ne_nil hne
          rw [h.pattern_eq, List.cons_append, List.cons_prefix_cons]
          rintro ⟨rfl, _⟩
          exact @mark_notMem_tail h' h (hplain _ (mem_holes.1 hmem)) (hs.subset (by simp))
      · rw [replaceFrom_pass, hrest]
        exact fun s hs hne => hquiet.not_begins hs hne _

-- When the parameters, the arguments and the line do not get into each other's way.
structure Apart (params args : List Str) (line : Str) : Prop where
  names : ∀ p ∈ params, PlainName p
  args : ∀ a ∈ args, ∀ h ∈ holes params, Quiet h.pattern a
  line : Steady params (scanFrom params 0 line)

instance (params args : List Str) (line : Str) : Decidable (Apart params args line) :=
  decidable_of_iff ((∀ p ∈ params, PlainName p) ∧ (∀ a ∈ args, ∀ h ∈ holes params, Quiet h.pattern a) ∧
      Steady params (scanFrom params 0 line))
    ⟨fun h => ⟨h.1, h.2.1, h.2.2⟩, fun h => ⟨h.names, h.args, h.line⟩⟩

-- The holes after the placeholders of some parameters have been replaced.
def partly (params args done : List Str) (h : Hole) : Str :=
  if done.contains h.param then argOf params args h.param else h.pattern

section Substitute

variable {params args : List Str} {line : Str}

theorem partly_of_mem {done : List Str} {hole : Hole} (h : hole.param ∈ done) :
    partly params args done hole = argOf params args hole.param :=
  if_pos (List.contains_iff_mem.2 h)

theorem partly_of_not_mem {done : List Str} {hole : Hole} (h : hole.param ∉ done) :
    partly params args done hole = hole.pattern :=
  if_neg (mt List.contains_iff_mem.1 h)

theorem argOf_quiet (h : Apart params args line) {hole : Hole} (hhole : hole ∈ holes params) (p : Str) :
    Quiet hole.pattern (argOf params args p) := by
  unfold argOf
  cases hl : (params.zip args).reverse.lookup p with
  | none => exact quiet_nil _
  | some a =>
    have hmem := List.mem_reverse.mp (mem_of_lookup hl)
    exact h.args a (List.of_mem_zip hmem).2 hole hhole

theorem replaceAll_pattern (h : Hole) (text value : Str) :
    replaceAll text h.pattern value = replaceFrom h.pattern value 0 text :=
  if_neg h.pattern_ne_nil

-- The placeholders of one parameter are replaced, in braces first.
theorem replace_param (h : Apart params args line) {p : Str} {done : List Str} (hp : p ∈ params)
    (hnew : p ∉ done) :
    replaceAll (replaceAll (fill (partly params args done) (scanFrom params 0 line)) (braced p)
        (argOf params args p)) (dollar p) (argOf params args p) =
      fill (partly params args (p :: done)) (scanFrom params 0 line) := by
  have hscanned := scanFrom_scanned params 0 line
  have hpartly : ∀ {hole : Hole}, hole ∈ holes params → ∀ h', partly params args done h' = h'.pattern ∨
      Quiet hole.pattern (partly params args done h') := by
    intro hole hhole h'
    by_cases hdone : h'.param ∈ done
    · grind [partly_of_mem, argOf_quiet]
    · exact Or.inl (partly_of_not_mem hdone)
  have hbraces := @replaceFrom_fill params _ (partly params args done) ⟨true, p⟩ (argOf params args p)
    (mem_holes.2 hp) hscanned h.line h.names (partly_of_not_mem hnew) fun h' _ => hpartly (mem_holes.2 hp) h'
  have hdollar := @replaceFrom_fill params _
    (Function.update (partly params args done) ⟨true, p⟩ (argOf params args p)) ⟨false, p⟩
    (argOf params args p) (mem_holes.2 hp) hscanned h.line h.names
    (by grind [partly_of_not_mem]) (by
      grind [argOf_quiet, mem_holes])
  change replaceAll (replaceAll _ (Hole.pattern ⟨true, p⟩) _) (Hole.pattern ⟨false, p⟩) _ = _
  rw [replaceAll_pattern, replaceAll_pattern, hbraces, hdollar]
  congr 1
  funext h'
  obtain ⟨braces, q⟩ := h'
  by_cases hq : q = p
  · subst hq
    cases braces <;> simp [partly, Function.update]
  simp [partly, hq]

theorem foldl_params (h : Apart params args line) {keys done : List Str} (hnodup : keys.Nodup)
    (hkeys : ∀ p ∈ keys, p ∈ params ∧ p ∉ done) :
    keys.foldl (fun text p => replaceAll (replaceAll text (braced p) (argOf params args p)) (dollar p)
        (argOf params args p)) (fill (partly params args done) (scanFrom params 0 line)) =
      fill (partly params args (keys.reverse ++ done)) (scanFrom params 0 line) := by
  induction keys generalizing done with
  | nil => rfl
  | cons p keys ih =>
    obtain ⟨hp, hnew⟩ := hkeys p (by simp)
    obtain ⟨hother, hnodup⟩ := List.nodup_cons.1 hnodup
    rw [List.foldl_cons, replace_param h hp hnew, ih hnodup, List.reverse_cons, List.append_assoc,
      List.singleton_append]
    grind

theorem Scanned.mem_holes {pieces : List (Piece UInt8 Hole)} (h : Scanned params pieces) {hole : Hole}
    (hmem : Piece.hole hole ∈ pieces) : hole ∈ holes params := by
  induction pieces with
  | nil => cases hmem
  | cons piece pieces ih =>
    cases piece with
    | char c =>
      rw [List.mem_cons, or_iff_right nofun] at hmem
      exact ih h.2 hmem
    | hole h' =>
      rcases List.mem_cons.mp hmem with heq | hmem
      · cases heq
        exact h.1
      · exact ih h.2.2 hmem

end Substitute

-- Two of the orders in which a map may list its keys.

def backwards : Visit := ⟨fun params => params.dedup.reverse, fun _ => List.reverse_perm _⟩

def forwards : Visit :=
  ⟨fun params => (backwards.keys params).reverse,
    fun params => (List.reverse_perm _).trans (backwards.perm params)⟩

end Wirth.Toolchain.Macro

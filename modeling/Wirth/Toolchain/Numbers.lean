import Wirth.Toolchain.Util

namespace Wirth.Toolchain

open Wirth.Lib

-- The sign of a numeral, its base and what stands behind the prefix.
def numeral (text : Str) : Int × Int × Str :=
  let s := trim text
  (if s.head? = some (chr '-') then -1 else 1,
    numberBase (if s.head? = some (chr '+') ∨ s.head? = some (chr '-') then s.tail else s))

def digitsOf (text : Str) : Str := (numeral text).2.2.filter (· ≠ chr '_')

def numeralValue (text : Str) : Int :=
  (digitsOf text).foldl (fun value c => value * (numeral text).2.1 + digitOf c) 0 * (numeral text).1

def isDigitOf (base : Int) (c : UInt8) : Bool := 0 ≤ digitOf c && digitOf c < base

-- The number that a text denotes: separators are ignored, and there has to be a digit.
def denoted (text : Str) : Option Int :=
  if digitsOf text ≠ [] ∧ (digitsOf text).all (isDigitOf (numeral text).2.1) then
    some (numeralValue text)
  else none

-- Exactly the numbers of 64 bits are accepted, with their values.
def ParsesExactly (text : Str) : Prop :=
  ∀ v, parseNumber text = .ok v ↔ denoted text = some v ∧ InRange64 v

theorem wrap64_mul_add (value base d : Int) :
    wrap64 (wrap64 value * base + d) = wrap64 (value * base + d) := by
  rw [wrap64, wrap64, Int.add_bmod, Int.bmod_mul_bmod, ← Int.add_bmod, wrap64]

theorem parseDigits_eq (text : Str) (base value : Int) (tail : Str) :
    parseDigits text base (wrap64 value) tail =
      if (tail.filter (· ≠ chr '_')).all (isDigitOf base) then
        .ok (wrap64 ((tail.filter (· ≠ chr '_')).foldl (fun value c => value * base + digitOf c) value))
      else .error (invalidNumber text) := by
  induction tail generalizing value with
  | nil => simp [parseDigits]
  | cons c tail ih =>
    rw [parseDigits]
    by_cases hsep : c = chr '_'
    · rw [if_pos hsep, ih]
      simp [hsep]
    · rw [if_neg hsep]
      by_cases hdigit : 0 ≤ digitOf c ∧ digitOf c < base
      · rw [if_neg (by omega), wrap64_mul_add, ih]
        simp [hsep, isDigitOf, hdigit]
      · rw [if_pos (by omega)]
        simp [hsep, isDigitOf, hdigit]

theorem parseNumber_eq (text : Str) : parseNumber text =
    if trim text = [] then .error (.thrown (lit "número vazio"))
    else if (numeral text).2.2 = [] then .error (invalidNumber text)
    else parseDigits text (numeral text).2.1 0 (numeral text).2.2 >>= fun value =>
      .ok (wrap64 (value * (numeral text).1)) := rfl

theorem parseNumber_ok_iff {text : Str} {v : Int} : parseNumber text = .ok v ↔
    (numeral text).2.2 ≠ [] ∧
      (digitsOf text).all (isDigitOf (numeral text).2.1) ∧
      wrap64 (numeralValue text) = v := by
  have hdigits := parseDigits_eq text (numeral text).2.1 0 (numeral text).2.2
  have hwrap := wrap64_mul_add
    ((digitsOf text).foldl (fun value c => value * (numeral text).2.1 + digitOf c) 0) (numeral text).1 0
  rw [Int.add_zero, Int.add_zero, ← numeralValue] at hwrap
  rw [parseNumber_eq]
  by_cases hempty : trim text = []
  · simp [numeral, hempty, numberBase, lit]
  by_cases htail : (numeral text).2.2 = []
  · simp [hempty, htail]
  rw [if_neg hempty, if_neg htail, ← wrap64_eq_self (x := 0) (by decide), hdigits, ← digitsOf]
  split_ifs with hvalid
  · simp only [ok_bind, hwrap, Except.ok.injEq]
    exact ⟨fun h => ⟨htail, hvalid, h⟩, fun h => h.2.2⟩
  · exact ⟨fun h => (by cases h), fun h => absurd h.2.1 hvalid⟩

-- A value that does not fit is reduced, and separators without a digit count as zero.
theorem parse_number_exact_iff (text : Str) : ParsesExactly text ↔
    (∀ v, denoted text = some v → InRange64 v) ∧
      ¬((numeral text).2.2 ≠ [] ∧ digitsOf text = []) := by
  have hsome : ∀ v, denoted text = some v ↔ digitsOf text ≠ [] ∧
      (digitsOf text).all (isDigitOf (numeral text).2.1) ∧ numeralValue text = v := by
    intro v
    simp only [denoted, Option.ite_none_right_eq_some, Option.some.injEq, and_assoc]
  have htail : digitsOf text ≠ [] → (numeral text).2.2 ≠ [] := by
    intro hdigits htail
    exact hdigits (by rw [digitsOf, htail]; rfl)
  constructor
  · intro h
    refine ⟨fun v hv => ?_, fun ⟨hnonempty, hnone⟩ => ?_⟩
    · obtain ⟨hdigits, hvalid, _⟩ := (hsome v).mp hv
      have hparsed := (h _).mp (parseNumber_ok_iff.mpr ⟨htail hdigits, hvalid, rfl⟩)
      rw [Option.some.inj (hv.symm.trans hparsed.1)]
      exact hparsed.2
    · have hparsed := (h _).mp (parseNumber_ok_iff.mpr ⟨hnonempty, by simp [hnone], rfl⟩)
      exact ((hsome _).mp hparsed.1).1 hnone
  · rintro ⟨hfits, hdigit⟩ v
    rw [parseNumber_ok_iff, hsome]
    constructor
    · rintro ⟨hnonempty, hvalid, rfl⟩
      have hdigits : digitsOf text ≠ [] := fun hnone => hdigit ⟨hnonempty, hnone⟩
      have hrange := hfits _ ((hsome _).mpr ⟨hdigits, hvalid, rfl⟩)
      rw [wrap64_eq_self hrange]
      exact ⟨⟨hdigits, hvalid, rfl⟩, hrange⟩
    · rintro ⟨⟨hdigits, hvalid, rfl⟩, hrange⟩
      exact ⟨htail hdigits, hvalid, wrap64_eq_self hrange⟩

theorem underscore_is_number : isNumber (lit "_") = true ∧ denoted (lit "_") = none ∧
    parseNumber (lit "18446744073709551617") = .ok 1 := by
  decide +kernel

end Wirth.Toolchain

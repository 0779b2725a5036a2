import Wirth.Toolchain.Json.Dump
import Wirth.Toolchain.Json.Parser
import Mathlib.Data.Nat.Digits.Lemmas

namespace Wirth.Toolchain.Json

open Wirth.Lib

-- Blanks

theorem skipWs_of_head {c : UInt8} (s : Str) (hc : isSpace c = false) :
    skipWs (c :: s) = c :: s := by
  simp [skipWs, hc]

theorem skipWs_append (blank s : Str) (h : blank.all isSpace = true) :
    skipWs (blank ++ s) = skipWs s := by
  induction blank with
  | nil => rfl
  | cons c rest ih =>
    rw [List.all_cons, Bool.and_eq_true] at h
    rw [← ih h.2]
    simp [skipWs, h.1]

theorem indent_blank (n : Nat) : (indent n).all isSpace = true := by
  rw [List.all_eq_true]
  intro c hc
  rw [List.eq_of_mem_replicate hc]
  decide

@[simp] theorem skipWs_indent (n : Nat) (s : Str) : skipWs (indent n ++ s) = skipWs s :=
  skipWs_append _ s (indent_blank n)

@[simp] theorem skipWs_skipWs (s : Str) : skipWs (skipWs s) = skipWs s := by
  exact List.dropWhile_idempotent isSpace s

-- Strings

theorem hexCode_control : ∀ n : Fin 32,
    hexCode [chr '0', chr '0', hexDigits.getD (n.val / 16) 0, hexDigits.getD (n.val % 16) 0] =
      .ok n.val := by
  decide

theorem parseStringBody_close (out rest : Str) :
    parseStringBody out (chr '"' :: rest) = .ok (out, rest) := by
  rw [parseStringBody.eq_def]
  simp only [if_true]

theorem parseStringBody_plain (out rest : Str) {ch : UInt8} (hq : ch ≠ chr '"')
    (hb : ch ≠ chr '\\') :
    parseStringBody out (ch :: rest) = parseStringBody (out ++ [ch]) rest := by
  rw [parseStringBody.eq_def]
  simp only [if_neg hq, if_neg hb]

theorem parseStringBody_simple (out tail : Str) {esc c : UInt8} (hu : esc ≠ chr 'u')
    (he : simpleEscape esc = some c) :
    parseStringBody out (chr '\\' :: esc :: tail) = parseStringBody (out ++ [c]) tail := by
  rw [parseStringBody.eq_def]
  simp only [if_neg (show chr '\\' ≠ chr '"' by decide), if_true, if_neg hu, he]

theorem parseStringBody_control (out tail : Str) {ch : UInt8} (hc : ch < 0x20) :
    parseStringBody out (lit "\\u00" ++ [hexDigits.getD (ch.toNat / 16) 0,
      hexDigits.getD (ch.toNat % 16) 0] ++ tail) = parseStringBody (out ++ [ch]) tail := by
  have hn : ch.toNat < 32 := UInt8.lt_iff_toNat_lt.mp hc
  have hcode := hexCode_control ⟨ch.toNat, hn⟩
  have hlit : lit "\\u00" = [chr '\\', chr 'u', chr '0', chr '0'] := by decide
  rw [hlit]
  simp only [List.cons_append, List.nil_append]
  rw [parseStringBody.eq_def]
  simp only [if_neg (show chr '\\' ≠ chr '"' by decide), if_true, hcode, if_pos (show ch.toNat ≤ 0x7F by omega), UInt8.ofNat_toNat]

-- Each byte is read back from its own escape, whatever surrounds it.
theorem parseStringBody_escapeByte (out tail : Str) (ch : UInt8) :
    parseStringBody out (escapeByte ch ++ tail) = parseStringBody (out ++ [ch]) tail := by
  unfold escapeByte
  split_ifs with hq hb h8 h12 h10 h13 h9 hc
  · subst hq
    exact parseStringBody_simple out tail (by decide) (by decide)
  · subst hb
    exact parseStringBody_simple out tail (by decide) (by decide)
  · subst h8
    exact parseStringBody_simple out tail (by decide) (by decide)
  · subst h12
    exact parseStringBody_simple out tail (by decide) (by decide)
  · subst h10
    exact parseStringBody_simple out tail (by decide) (by decide)
  · subst h13
    exact parseStringBody_simple out tail (by decide) (by decide)
  · subst h9
    exact parseStringBody_simple out tail (by decide) (by decide)
  · exact parseStringBody_control out tail hc
  · exact parseStringBody_plain out tail hq hb

theorem parseStringBody_jsonEscape (out s rest : Str) :
    parseStringBody out (jsonEscape s ++ chr '"' :: rest) = .ok (out ++ s, rest) := by
  induction s generalizing out with
  | nil =>
    rw [List.append_nil]
    exact parseStringBody_close out rest
  | cons ch s ih =>
    have h := ih (out ++ [ch])
    simp only [jsonEscape, List.flatMap_cons, List.append_assoc] at h ⊢
    rw [parseStringBody_escapeByte, h]
    rfl

theorem parseString_quoted (s rest : Str) : parseString (quoted s ++ rest) = .ok (s, rest) := by
  simp [parseStringBody_jsonEscape, parseString, quoted, expect, get]

-- Numbers

theorem digit_isDigit {d : Nat} (hd : d < 10) : isDigit (UInt8.ofNat (48 + d)) = true := by
  interval_cases d <;> decide

theorem digit_value {d : Nat} (hd : d < 10) : (UInt8.ofNat (48 + d)).toNat - 48 = d := by
  rw [UInt8.toNat_ofNat']
  omega

theorem decimalNat_isDigit (n : Nat) : ∀ c ∈ decimalNat n, isDigit c = true := by
  intro c hc
  unfold decimalNat at hc
  split_ifs at hc
  · rw [List.mem_singleton.mp hc]
    decide
  · obtain ⟨d, hd, rfl⟩ := List.mem_map.mp (List.mem_reverse.mp hc)
    exact digit_isDigit (Nat.digits_lt_base (by decide) hd)

theorem decimalNat_ne_nil (n : Nat) : decimalNat n ≠ [] := by
  unfold decimalNat
  split_ifs with h
  · simp
  · simp [Nat.digits_ne_nil_iff_ne_zero.mpr h]

theorem foldr_digits (ds : List Nat) (hd : ∀ d ∈ ds, d < 10) :
    (ds.map fun d => UInt8.ofNat (48 + d)).foldr (fun c acc => 10 * acc + (c.toNat - 48)) 0 =
      Nat.ofDigits 10 ds := by
  induction ds with
  | nil => rfl
  | cons d ds ih =>
    rw [List.map_cons, List.foldr_cons, ih (fun d h => hd d (List.mem_cons_of_mem _ h)),
      digit_value (hd d (by simp)), Nat.ofDigits_cons]
    simp [Nat.add_comm]

theorem digitsValue_decimalNat (n : Nat) : digitsValue (decimalNat n) = n := by
  unfold decimalNat
  split_ifs with h
  · subst h
    rfl
  · rw [digitsValue, List.foldl_reverse]
    exact (foldr_digits _ fun d hd => Nat.digits_lt_base (by decide) hd).trans
      (Nat.ofDigits_digits 10 n)

theorem takeWhile_digits (ds rest : Str) (hd : ∀ c ∈ ds, isDigit c = true)
    (hr : isDigit (peek rest) = false) :
    (ds ++ rest).takeWhile isDigit = ds ∧ (ds ++ rest).dropWhile isDigit = rest := by
  induction ds with
  | nil =>
    cases rest with
    | nil => simp
    | cons c rest =>
      have hc : isDigit c = false := hr
      simp [hc]
  | cons c ds ih =>
    have h := ih (fun c hc => hd c (List.mem_cons_of_mem _ hc))
    simp [hd c (by simp), h.1, h.2]

def Delimited (rest : Str) : Prop :=
  isDigit (peek rest) = false ∧ peek rest ≠ chr '.' ∧ peek rest ≠ chr 'e' ∧ peek rest ≠ chr 'E'

theorem isSpace_of_isDigit {c : UInt8} (h : isDigit c = true) : isSpace c = false := by
  simp only [isDigit, Bool.and_eq_true, decide_eq_true_eq, UInt8.le_iff_toNat_le,
    UInt8.toNat_ofNat] at h
  simp only [isSpace, Bool.or_eq_false_iff, Bool.and_eq_false_iff, decide_eq_false_iff_not,
    UInt8.le_iff_toNat_le, ← UInt8.toNat_inj, UInt8.toNat_ofNat]
  omega

theorem isDigit_ne {c d : UInt8} (h : isDigit c = true) (hd : isDigit d = false) : c ≠ d := by
  rintro rfl
  rw [h] at hd
  cases hd

variable {D : Type} [Floating D]

theorem scanSign_digits (ds rest : Str) (hne : ds ≠ []) (hd : ∀ c ∈ ds, isDigit c = true) :
    scanSign (ds ++ rest) = ([], ds ++ rest) := by
  obtain ⟨c, ds, rfl⟩ := List.exists_cons_of_ne_nil hne
  have hc := hd c (by simp)
  have hpeek : peek (c :: ds ++ rest) = c := rfl
  rw [scanSign, hpeek, if_neg]
  rintro (h | h)
  · exact isDigit_ne hc (by decide) h
  · exact isDigit_ne hc (by decide) h

theorem stringToInt_decimal (what : Str) (lo hi x : Int) (h : lo ≤ x ∧ x ≤ hi) :
    stringToInt what lo hi (decimal x) = .ok x := by
  have hds := decimalNat_isDigit x.natAbs
  have hne := decimalNat_ne_nil x.natAbs
  have htake := (takeWhile_digits (decimalNat x.natAbs) [] hds (by decide)).1
  have hval := digitsValue_decimalNat x.natAbs
  rw [List.append_nil] at htake
  by_cases hx : x < 0
  · have hdrop : (chr '-' :: decimalNat x.natAbs).dropWhile isSpace =
        chr '-' :: decimalNat x.natAbs := by
      rw [List.dropWhile_cons_of_neg (by decide)]
    simp only [decimal, if_pos hx, stringToInt, hdrop, List.head?_cons, List.tail_cons,
      decide_true, Bool.true_or, if_true, htake, if_neg hne, hval]
    rw [if_neg (by omega)]
    congr 1
    omega
  · obtain ⟨c, ds, hc⟩ := List.exists_cons_of_ne_nil hne
    rw [hc] at hds htake hval hne
    have hcd := hds c (by simp)
    have hdrop : (c :: ds).dropWhile isSpace = c :: ds := by
      rw [List.dropWhile_cons_of_neg (by simp [isSpace_of_isDigit hcd])]
    have hm : c ≠ chr '-' := isDigit_ne hcd (by decide)
    have hp : c ≠ chr '+' := isDigit_ne hcd (by decide)
    simp only [decimal, if_neg hx, hc, stringToInt, hdrop, List.head?_cons, Option.some.injEq, hm,
      hp, decide_false, Bool.or_self, Bool.false_eq_true, if_false, htake, if_neg hne, hval]
    rw [if_neg (by omega)]
    congr 1
    omega

-- An integer is read back from its decimal form when what follows ends the number.
theorem parseNumber_decimal (v : Int64) (rest : Str) (hr : Delimited rest) :
    parseNumber (decimal v.toInt ++ rest) = .ok ((.int v : Value D), rest) := by
  obtain ⟨hdigit, hdot, he, hE⟩ := hr
  have hds := decimalNat_isDigit v.toInt.natAbs
  have hne := decimalNat_ne_nil v.toInt.natAbs
  obtain ⟨htake, hdrop⟩ := takeWhile_digits (decimalNat v.toInt.natAbs) rest hds hdigit
  have hfrac : scanFraction rest = ([], rest) := by rw [scanFraction, if_neg hdot]
  have hexp : scanExponent rest = ([], rest) := by
    simp [scanExponent, he, hE]
  have hconv := stringToInt_decimal (lit "stoll") (-(2 ^ 63)) (2 ^ 63 - 1) v.toInt
    ⟨v.le_toInt, by have := v.toInt_lt; omega⟩
  by_cases hneg : v.toInt < 0
  · have hsign : scanSign (decimal v.toInt ++ rest) =
        ([chr '-'], decimalNat v.toInt.natAbs ++ rest) := by
      have hpeek : peek (chr '-' :: decimalNat v.toInt.natAbs ++ rest) = chr '-' := rfl
      rw [decimal, if_pos hneg, scanSign, if_pos (Or.inl hpeek)]
      rfl
    have hslice : [chr '-'] ++ decimalNat v.toInt.natAbs ++ [] ++ [] = decimal v.toInt := by
      simp [decimal, hneg]
    simp only [parseNumber, hsign, htake, hdrop, hfrac, hexp, hslice]
    rw [if_neg (by simp [decimal, hneg]), if_neg (by simp), hconv, ok_bind, Value.ofInt,
      Int64.ofInt_toInt]
  · have hsign : scanSign (decimal v.toInt ++ rest) =
        ([], decimalNat v.toInt.natAbs ++ rest) := by
      rw [decimal, if_neg hneg, scanSign_digits _ _ hne hds]
    have hslice : [] ++ decimalNat v.toInt.natAbs ++ [] ++ [] = decimal v.toInt := by
      simp [decimal, hneg]
    simp only [parseNumber, hsign, htake, hdrop, hfrac, hexp, hslice]
    rw [if_neg (by simp [decimal, hneg, hne]), if_neg (by simp), hconv, ok_bind, Value.ofInt,
      Int64.ofInt_toInt]

end Wirth.Toolchain.Json

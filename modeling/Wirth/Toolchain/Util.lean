import Wirth.Lib.LongLong
import Wirth.Lib.Text

namespace Wirth.Toolchain

open Wirth.Lib

def trim (text : Str) : Str := (text.dropWhile isSpace).rdropWhile isSpace

def stripComment (line : Str) : Str := line.takeWhile fun c => c ≠ chr ';' && c ≠ chr '#'

def isQuote (c : UInt8) : Bool := c = chr '\'' || c = chr '"'

-- The scanner keeps the open quote, with 0 for none, and the token read so far.
def tokenizeFrom (quote : UInt8) (current : Str) : Str → List Str
  | [] => if current = [] then [] else [current]
  | ch :: rest =>
      if quote ≠ 0 then
        tokenizeFrom (if ch = quote then 0 else quote) (current ++ [ch]) rest
      else if isQuote ch then
        tokenizeFrom ch (current ++ [ch]) rest
      else if isSpace ch then
        if current = [] then tokenizeFrom 0 [] rest else current :: tokenizeFrom 0 [] rest
      else
        tokenizeFrom 0 (current ++ [ch]) rest

def tokenize (line : Str) : List Str := tokenizeFrom 0 [] line

-- An argument is kept when something other than blanks is left of it.
def argItem (current : Str) : List Str := if trim current = [] then [] else [trim current]

-- Unlike the tokenizer, this scanner drops the quotes themselves.
def splitArgsFrom (quote : UInt8) (current : Str) : Str → List Str
  | [] => argItem current
  | ch :: rest =>
      if quote ≠ 0 then
        if ch = quote then splitArgsFrom 0 current rest
        else splitArgsFrom quote (current ++ [ch]) rest
      else if isQuote ch then
        splitArgsFrom ch current rest
      else if ch = chr ',' then
        argItem current ++ splitArgsFrom 0 [] rest
      else
        splitArgsFrom 0 (current ++ [ch]) rest

def splitArgs (text : Str) : List Str := splitArgsFrom 0 [] text

def upper (s : Str) : Str := s.map toUpper

def digitOf (ch : UInt8) : Int :=
  if 48 ≤ ch && ch ≤ 57 then (ch.toNat : Int) - 48
  else if 97 ≤ ch && ch ≤ 102 then 10 + ((ch.toNat : Int) - 97)
  else if 65 ≤ ch && ch ≤ 70 then 10 + ((ch.toNat : Int) - 65)
  else -1

def invalidNumber (text : Str) : Fault := .thrown (lit "número inválido: " ++ text)

def parseDigits (text : Str) (base value : Int) : Str → Result Int
  | [] => .ok value
  | ch :: rest =>
      if ch = chr '_' then parseDigits text base value rest
      else if digitOf ch < 0 ∨ base ≤ digitOf ch then .error (invalidNumber text)
      else parseDigits text base (wrap64 (value * base + digitOf ch)) rest

def numberBase (rest : Str) : Int × Str :=
  if (lit "0x").isPrefixOf rest then (16, rest.drop 2)
  else if (lit "0b").isPrefixOf rest then (2, rest.drop 2)
  else if (lit "0o").isPrefixOf rest then (8, rest.drop 2)
  else (10, rest)

def parseNumber (text : Str) : Result Int :=
  let s := trim text
  if s = [] then .error (.thrown (lit "número vazio"))
  else
    let sign : Int := if s.head? = some (chr '-') then -1 else 1
    let rest := if s.head? = some (chr '+') ∨ s.head? = some (chr '-') then s.tail else s
    let (base, digits) := numberBase rest
    if digits = [] then .error (invalidNumber text)
    else do
      let value ← parseDigits text base 0 digits
      .ok (wrap64 (value * sign))

def isNumber (text : Str) : Bool := (parseNumber text).toBool

def regIndex (name : Str) : Result Int :=
  let s := upper (trim name)
  if s.length < 2 ∨ s.head? ≠ some (chr 'R') then
    .error (.thrown (lit "registrador inválido: " ++ name))
  else do
    let idx ← stringToInt (lit "stoi") (-(2 ^ 31)) (2 ^ 31 - 1) (s.drop 1)
    if idx < 0 ∨ 7 < idx then .error (.thrown (lit "registrador fora de faixa: " ++ name))
    else .ok idx

theorem regIndex_bounds {name : Str} {idx : Int} (h : regIndex name = .ok idx) :
    0 ≤ idx ∧ idx ≤ 7 := by
  simp only [regIndex, ite_error_eq_ok, bind_eq_ok, Except.ok.injEq] at h
  obtain ⟨_, i, _, hi, rfl⟩ := h
  omega

end Wirth.Toolchain

import Wirth.Toolchain.Json.Value

namespace Wirth.Toolchain.Json

open Wirth.Lib

-- The parser's position is kept as the text that is still to be read.

def skipWs (s : Str) : Str := s.dropWhile isSpace

def peek (s : Str) : UInt8 := s.headD 0

def ended : Fault := .thrown (lit "JSON inesperadamente encerrado")

def get : Str → Result (UInt8 × Str)
  | [] => .error ended
  | ch :: rest => .ok (ch, rest)

def expect (ch : UInt8) (s : Str) : Result Str := do
  let (got, rest) ← get s
  if got ≠ ch then .error (.thrown (lit "esperado '" ++ [ch] ++ lit "'")) else .ok rest

def expectLiteral : Str → Str → Result Str
  | [], s => .ok s
  | ch :: literal, s => do
      let (got, rest) ← get s
      if got ≠ ch then .error (.thrown (lit "literal JSON inválido"))
      else expectLiteral literal rest

def badEscape : Fault := .thrown (lit "escape JSON inválido")

def hexValue (h : UInt8) : Result Nat :=
  if 48 ≤ h && h ≤ 57 then .ok (h.toNat - 48)
  else if 97 ≤ h && h ≤ 102 then .ok (10 + h.toNat - 97)
  else if 65 ≤ h && h ≤ 70 then .ok (10 + h.toNat - 65)
  else .error badEscape

def hexCode (digits : Str) : Result Nat :=
  digits.foldlM (fun code h => do .ok (16 * code + (← hexValue h))) 0

def simpleEscape (esc : UInt8) : Option UInt8 :=
  if esc = chr '"' then some (chr '"')
  else if esc = chr '\\' then some (chr '\\')
  else if esc = chr '/' then some (chr '/')
  else if esc = chr 'b' then some 8
  else if esc = chr 'f' then some 12
  else if esc = chr 'n' then some 10
  else if esc = chr 'r' then some 13
  else if esc = chr 't' then some 9
  else none

def parseStringBody (out : Str) : Str → Result (Str × Str)
  | [] => .error ended
  | ch :: rest =>
      if ch = chr '"' then .ok (out, rest)
      else if ch = chr '\\' then
        match rest with
        | [] => .error ended
        | esc :: rest =>
            if esc = chr 'u' then
              match rest with
              | a :: b :: c :: d :: rest =>
                  match hexCode [a, b, c, d] with
                  | .error e => .error e
                  | .ok code =>
                      if code ≤ 0x7F then parseStringBody (out ++ [UInt8.ofNat code]) rest
                      else .error (.thrown (lit "unicode fora do suporte mínimo do parser JSON"))
              -- fewer than four characters are left: the first bad one is reported, if any
              | short =>
                  match hexCode short with
                  | .error e => .error e
                  | .ok _ => .error ended
            else
              match simpleEscape esc with
              | some c => parseStringBody (out ++ [c]) rest
              | none => .error badEscape
      else parseStringBody (out ++ [ch]) rest

def parseString (s : Str) : Result (Str × Str) := do
  let rest ← expect (chr '"') s
  parseStringBody [] rest

-- The characters of a number, whether it is a floating point one, and the rest.
def scanSign (s : Str) : Str × Str :=
  if peek s = chr '-' ∨ peek s = chr '+' then (s.take 1, s.drop 1) else ([], s)

def scanFraction (s : Str) : Str × Str :=
  if peek s = chr '.' then
    (s.take 1 ++ (s.drop 1).takeWhile isDigit, (s.drop 1).dropWhile isDigit)
  else ([], s)

def scanExponent (s : Str) : Str × Str :=
  if peek s = chr 'e' ∨ peek s = chr 'E' then
    let (sign, rest) := scanSign (s.drop 1)
    (s.take 1 ++ sign ++ rest.takeWhile isDigit, rest.dropWhile isDigit)
  else ([], s)

variable {D : Type} [Floating D]

def parseNumber (s : Str) : Result (Value D × Str) :=
  let (sign, s1) := scanSign s
  let digits := s1.takeWhile isDigit
  let (fraction, s2) := scanFraction (s1.dropWhile isDigit)
  let (exponent, s3) := scanExponent s2
  let slice := sign ++ digits ++ fraction ++ exponent
  if slice = [] then .error (.thrown (lit "número JSON inválido"))
  else if fraction ≠ [] ∨ exponent ≠ [] then do
    let d ← Floating.stod slice
    .ok (.double d, s3)
  else do
    let v ← stringToInt (lit "stoll") (-(2 ^ 63)) (2 ^ 63 - 1) slice
    .ok (.ofInt v, s3)

mutual

-- The fuel bounds the calls of the recursive descent; `parseText` gives two for
-- each character of the text, which no text can use up.
def parseValue : Nat → Str → Result (Value D × Str)
  | 0, _ => .error .outOfBounds
  | fuel + 1, s =>
      let s := skipWs s
      let ch := peek s
      if ch = chr '\x7b' then do
        let s ← expect (chr '\x7b') s
        let s := skipWs s
        if peek s = chr '\x7d' then .ok (.obj [], s.drop 1)
        else do
          let (members, s) ← parseMembers fuel [] s
          .ok (.obj members, s)
      else if ch = chr '[' then do
        let s ← expect (chr '[') s
        let s := skipWs s
        if peek s = chr ']' then .ok (.arr [], s.drop 1)
        else do
          let (items, s) ← parseItems fuel [] s
          .ok (.arr items, s)
      else if ch = chr '"' then do
        let (text, s) ← parseString s
        .ok (.str text, s)
      else if ch = chr 't' then do
        let s ← expectLiteral (lit "true") s
        .ok (.bool true, s)
      else if ch = chr 'f' then do
        let s ← expectLiteral (lit "false") s
        .ok (.bool false, s)
      else if ch = chr 'n' then do
        let s ← expectLiteral (lit "null") s
        .ok (.null, s)
      else parseNumber s

def parseItems : Nat → List (Value D) → Str → Result (List (Value D) × Str)
  | 0, _, _ => .error .outOfBounds
  | fuel + 1, items, s => do
      let (v, s) ← parseValue fuel s
      let (ch, s) ← get (skipWs s)
      if ch = chr ']' then .ok (items ++ [v], s)
      else if ch ≠ chr ',' then .error (.thrown (lit "array JSON inválido"))
      else parseItems fuel (items ++ [v]) (skipWs s)

def parseMembers : Nat → List (Str × Value D) → Str → Result (List (Str × Value D) × Str)
  | 0, _, _ => .error .outOfBounds
  | fuel + 1, members, s => do
      let (key, s) ← parseString (skipWs s)
      let s ← expect (chr ':') (skipWs s)
      let (v, s) ← parseValue fuel (skipWs s)
      let (ch, s) ← get (skipWs s)
      if ch = chr '\x7d' then .ok (emplaceEntry key v members, s)
      else if ch ≠ chr ',' then .error (.thrown (lit "objeto JSON inválido"))
      else parseMembers fuel (emplaceEntry key v members) (skipWs s)

end

def parseText (text : Str) : Result (Value D) := do
  let (v, s) ← parseValue (2 * text.length + 2) (skipWs text)
  if skipWs s ≠ [] then .error (.thrown (lit "JSON com lixo após o fim do valor")) else .ok v

end Wirth.Toolchain.Json

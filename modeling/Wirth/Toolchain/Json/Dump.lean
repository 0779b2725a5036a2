import Wirth.Toolchain.Json.Value

namespace Wirth.Toolchain.Json

open Wirth.Lib

def hexDigits : Str := lit "0123456789abcdef"

-- Bytes from 0x20 on are written as they are, so a string need not be UTF-8.
def escapeByte (ch : UInt8) : Str :=
  if ch = chr '"' then lit "\\\""
  else if ch = chr '\\' then lit "\\\\"
  else if ch = 8 then lit "\\b"
  else if ch = 12 then lit "\\f"
  else if ch = 10 then lit "\\n"
  else if ch = 13 then lit "\\r"
  else if ch = 9 then lit "\\t"
  else if ch < 0x20 then
    lit "\\u00" ++ [hexDigits.getD (ch.toNat / 16) 0, hexDigits.getD (ch.toNat % 16) 0]
  else [ch]

def jsonEscape (s : Str) : Str := s.flatMap escapeByte

def quoted (s : Str) : Str := chr '"' :: (jsonEscape s ++ [chr '"'])

def indent (n : Nat) : Str := List.replicate n 32

variable {D : Type} [Floating D]

mutual

def dumpAt (step depth : Nat) : Value D → Str
  | .null => lit "null"
  | .bool b => if b then lit "true" else lit "false"
  | .int v => decimal v.toInt
  | .double d => Floating.print d
  | .str s => quoted s
  | .arr items =>
      if items.isEmpty then lit "[]"
      else lit "[\n" ++ dumpItems step (depth + step) items ++ indent depth ++ lit "]"
  | .obj members =>
      if members.isEmpty then lit "\x7b\x7d"
      else lit "\x7b\n" ++ dumpMembers step (depth + step) members ++ indent depth ++ lit "\x7d"

-- Items stand one to a line, with a comma after each but the last.
def dumpItems (step depth : Nat) : List (Value D) → Str
  | [] => []
  | v :: rest =>
      indent depth ++ dumpAt step depth v ++ (if rest.isEmpty then lit "\n" else lit ",\n") ++
        dumpItems step depth rest

def dumpMembers (step depth : Nat) : List (Str × Value D) → Str
  | [] => []
  | (key, v) :: rest =>
      indent depth ++ quoted key ++ lit ": " ++ dumpAt step depth v ++
        (if rest.isEmpty then lit "\n" else lit ",\n") ++ dumpMembers step depth rest

end

def dump (value : Value D) : Str := dumpAt 2 0 value

end Wirth.Toolchain.Json

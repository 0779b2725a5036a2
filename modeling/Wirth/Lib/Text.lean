import Wirth.Lib.Result
import Mathlib.Data.List.DropRight
import Mathlib.Data.List.Lex
import Mathlib.Data.Nat.Digits.Defs

namespace Wirth.Lib

abbrev Str := List UInt8

instance byteOrder : LinearOrder UInt8 where
  le_refl := UInt8.le_refl
  le_trans _ _ _ := UInt8.le_trans
  lt_iff_le_not_ge a b := by
    grind
  le_antisymm _ _ := UInt8.le_antisymm
  le_total := UInt8.le_total
  toDecidableLE := inferInstance

def lit (s : String) : Str := s.toList.flatMap String.utf8EncodeChar

def chr (c : Char) : UInt8 := UInt8.ofNat c.toNat

def isSpace (c : UInt8) : Bool := c = 32 || (9 ≤ c && c ≤ 13)

def isDigit (c : UInt8) : Bool := 48 ≤ c && c ≤ 57

def toUpper (c : UInt8) : UInt8 := if 97 ≤ c && c ≤ 122 then c - 32 else c

def find (pat : Str) : Str → Option Nat
  | [] => if pat = [] then some 0 else none
  | c :: rest => if pat.isPrefixOf (c :: rest) then some 0 else (find pat rest).map (· + 1)

def decimalNat (n : Nat) : Str :=
  if n = 0 then [48] else ((Nat.digits 10 n).map fun d => UInt8.ofNat (48 + d)).reverse

def decimal (x : Int) : Str :=
  if x < 0 then chr '-' :: decimalNat x.natAbs else decimalNat x.natAbs

def digitsValue (s : Str) : Nat := s.foldl (fun acc c => 10 * acc + (c.toNat - 48)) 0

-- Decimal conversion in the manner of `strtol`: blanks, a sign and the longest run of
-- digits are read, and what follows is ignored. Without a digit, or with a value
-- outside the given bounds, the conversion throws.
def stringToInt (what : Str) (lo hi : Int) (s : Str) : Result Int :=
  let s := s.dropWhile isSpace
  let neg := s.head? = some (chr '-')
  let s := if neg || s.head? = some (chr '+') then s.tail else s
  let ds := s.takeWhile isDigit
  if ds = [] then .error (.thrown what)
  else
    let value : Int := if neg then -(digitsValue ds : Int) else digitsValue ds
    if value < lo ∨ hi < value then .error (.thrown what) else .ok value

end Wirth.Lib

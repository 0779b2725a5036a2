import Wirth.Lib.OrdMap
import Wirth.Lib.Text

namespace Wirth.Toolchain.Json

open Wirth.Lib

-- The library's floating point numbers: reading, printing and truncating conversion.
class Floating (D : Type) where
  stod : Str → Result D
  print : D → Str
  toLongLong : D → Int64

-- No floating point numbers at all, for runs on files that have none.
instance : Floating Empty where
  stod _ := .error (.thrown (lit "stod"))
  print d := nomatch d
  toLongLong d := nomatch d

inductive Value (D : Type) where
  | null
  | bool (b : Bool)
  | int (v : Int64)
  | double (d : D)
  | str (s : Str)
  | arr (items : List (Value D))
  | obj (members : List (Str × Value D))

namespace Value

variable {D : Type}

inductive Built : Value D → Prop
  | null : Built .null
  | bool (b : Bool) : Built (.bool b)
  | int (v : Int64) : Built (.int v)
  | str (s : Str) : Built (.str s)
  | arr {items : List (Value D)} (h : ∀ v ∈ items, Built v) : Built (.arr items)
  | obj {members : List (Str × Value D)} (hs : SortedKeys members)
      (h : ∀ p ∈ members, Built p.2) : Built (.obj members)

def ofInt (x : Int) : Value D := .int (Int64.ofInt x)

def isObject : Value D → Bool
  | .obj _ => true
  | _ => false

def badAccess : Fault := .thrown (lit "std::get: wrong index for variant")

def asObject : Value D → Result (List (Str × Value D))
  | .obj members => .ok members
  | _ => .error badAccess

def asArray : Value D → Result (List (Value D))
  | .arr items => .ok items
  | _ => .error badAccess

def asString : Value D → Result Str
  | .str s => .ok s
  | _ => .error badAccess

def asInt [Floating D] : Value D → Result Int
  | .int v => .ok v.toInt
  | .double d => .ok (Floating.toLongLong d).toInt
  | _ => .error (.thrown (lit "valor JSON não numérico"))

theorem asInt_ofInt [Floating D] {x : Int} (h : -(2 ^ 63) ≤ x ∧ x < 2 ^ 63) :
    asInt (ofInt x : Value D) = .ok x := by
  rw [ofInt, asInt, Int64.toInt_ofInt_of_le h.1 h.2]

end Value

def atKey {D : Type} (members : List (Str × Value D)) (key : Str) : Result (Value D) :=
  match members.lookup key with
  | some v => .ok v
  | none => .error (.thrown (lit "map::at"))

end Wirth.Toolchain.Json

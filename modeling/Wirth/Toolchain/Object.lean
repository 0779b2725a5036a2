import Wirth.Lib.Buffer
import Wirth.Toolchain.Json.Value
import Wirth.Toolchain.Util

namespace Wirth.Toolchain

open Wirth.Lib Wirth.Toolchain.Json

structure Reloc where
  offset : Int
  size : Int
  symbol : Str
  addend : Int
  deriving DecidableEq

structure ObjectFile where
  module : Str
  size : Int
  code : List UInt8
  symbols : OrdMap Str Int
  globals : List Str
  externs : List Str
  entry : Int
  relocations : List Reloc
  deriving DecidableEq

-- The two kinds of image.

def absolute : Str := lit "absolute"

def relocatable : Str := lit "relocatable"

-- The number of bytes in a code vector. A negative one cannot be allocated.
def codeSize (size : Int) : Result Nat :=
  if size < 0 then .error (.thrown (lit "cannot create std::vector larger than max_size()"))
  else .ok size.toNat

-- What the linker may rely on: the recorded size is that of the code, symbols lie in it or
-- at its end, exports are defined and listed once, and the fields to relocate are halfwords
-- inside the code, in order and without overlap.
structure ObjectFile.WellFormed (o : ObjectFile) : Prop where
  size : o.size = o.code.length
  symbols : ∀ s v, o.symbols.find? s = some v → 0 ≤ v ∧ v ≤ o.code.length
  globals : ∀ g ∈ o.globals, (o.symbols.find? g).isSome
  nodup : o.globals.Nodup
  fields : ∀ r ∈ o.relocations, r.size = 2 ∧ 0 ≤ r.offset ∧ r.offset + 2 ≤ o.code.length
  ordered : o.relocations.Pairwise fun r s => r.offset + 2 ≤ s.offset

variable {D : Type}

section Parse

variable [Floating D]

def parseCode (items : List (Value D)) : Result (List UInt8) :=
  items.mapM fun item => do .ok (toByte (← item.asInt))

def parseSymbols (members : List (Str × Value D)) : Result (OrdMap Str Int) :=
  members.foldlM (fun symbols p => do .ok (symbols.insert p.1 (← p.2.asInt))) OrdMap.empty

def parseReloc (item : Value D) : Result Reloc := do
  let ro ← item.asObject
  let offset ← (← atKey ro (lit "offset")).asInt
  let size ← (← atKey ro (lit "size")).asInt
  let symbol ← (← atKey ro (lit "symbol")).asString
  let addend ← match ro.lookup (lit "addend") with
    | some v => v.asInt
    | none => .ok 0
  .ok ⟨offset, size, symbol, addend⟩

-- A member that may be missing, with what its absence stands for.
def optional {α : Type} (obj : List (Str × Value D)) (key : Str) (absent : α)
    (read : Value D → Result α) : Result α :=
  match obj.lookup key with
  | some v => read v
  | none => .ok absent

def isObjectFormat (obj : List (Str × Value D)) : Bool :=
  match obj.lookup (lit "format") with
  | some (.str s) => s = lit "wirth-obj-v1"
  | _ => false

def parseObject (root : Value D) : Result ObjectFile :=
  match root with
  | .obj obj => do
      if isObjectFormat obj = false then .error (.thrown (lit "arquivo de objeto inválido"))
      else
        let module ← (← atKey obj (lit "module")).asString
        let size ← (← atKey obj (lit "size")).asInt
        let code ← parseCode (← (← atKey obj (lit "code")).asArray)
        let symbols ← parseSymbols (← (← atKey obj (lit "symbols")).asObject)
        let globals ← (← (← atKey obj (lit "globals")).asArray).mapM Value.asString
        let externs ← optional obj (lit "externs") [] fun v => do (← v.asArray).mapM Value.asString
        let entry ← optional obj (lit "entry") 0 Value.asInt
        let relocations ← optional obj (lit "relocations") [] fun v => do
          (← v.asArray).mapM parseReloc
        .ok ⟨module, size, code, symbols, globals, externs, entry, relocations⟩
  | _ => .error (.thrown (lit "objeto JSON inválido"))

end Parse

def assigned (entries : List (Str × Value D)) : List (Str × Value D) :=
  entries.foldl (fun acc p => assignEntry p.1 p.2 acc) []

def members (entries : List (Str × Value D)) : Value D := .obj (assigned entries)

theorem lookup_assigned {entries : List (Str × Value D)} (h : (entries.map Prod.fst).Nodup)
    (key : Str) : (assigned entries).lookup key = entries.lookup key := by
  rw [assigned, lookup_foldl_assignEntry h, List.lookup_nil, Option.or_none]

theorem atKey_assigned {entries : List (Str × Value D)} (h : (entries.map Prod.fst).Nodup)
    (key : Str) : atKey (assigned entries) key = atKey entries key := by
  rw [atKey, lookup_assigned h, atKey]

def relocJson (r : Reloc) : Value D :=
  members [(lit "offset", .ofInt r.offset), (lit "size", .ofInt r.size),
    (lit "symbol", .str r.symbol), (lit "addend", .ofInt r.addend)]

def codeJson (code : List UInt8) : Value D := .arr (code.map fun b => .ofInt b.toNat)

def symbolsJson (symbols : OrdMap Str Int) : Value D :=
  .obj (symbols.entries.map fun p => (p.1, .ofInt p.2))

def namesJson (names : List Str) : Value D := .arr (names.map .str)

def objectMembers (o : ObjectFile) : List (Str × Value D) :=
  [(lit "format", .str (lit "wirth-obj-v1")), (lit "module", .str o.module),
    (lit "size", .ofInt o.size), (lit "code", codeJson o.code),
    (lit "symbols", symbolsJson o.symbols), (lit "globals", namesJson o.globals),
    (lit "externs", namesJson o.externs), (lit "entry", .ofInt o.entry),
    (lit "relocations", .arr (o.relocations.map relocJson))]

def objectJson (o : ObjectFile) : Value D := members (objectMembers o)

theorem parseCode_codeJson [Floating D] (code : List UInt8) :
    parseCode (code.map fun b => (Value.ofInt b.toNat : Value D)) = .ok code := by
  unfold parseCode
  induction code with
  | nil => rfl
  | cons b rest ih =>
    have hb := b.toNat_lt
    rw [List.map_cons, List.mapM_cons, ih, Value.asInt_ofInt ⟨by omega, by omega⟩]
    simp

end Wirth.Toolchain

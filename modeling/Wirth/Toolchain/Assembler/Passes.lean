import Wirth.Toolchain.Assembler.Encode

namespace Wirth.Toolchain.Assembler

open Wirth.Lib Wirth.Toolchain.Json

-- Everything before the first colon is a label, unless it is blank.
def splitLabel (line : Str) : Str × Str :=
  match find [chr ':'] line with
  | none => ([], line)
  | some at_ =>
      let left := trim (line.take at_)
      let right := trim (line.drop (at_ + 1))
      if left = [] then ([], line) else (left, right)

structure Layout where
  symbols : OrdMap Str Int
  globals : List Str
  externs : List Str
  parsed : List (Int × Str)
  pc : Int
  deriving DecidableEq

def Layout.start : Layout := ⟨OrdMap.empty, [], [], [], 0⟩

def Layout.advance (st : Layout) (n : Int) : Layout := { st with pc := wrap64 (st.pc + n) }

-- What the first pass does with the text after a label, which is kept for the second.
def layoutStatement (pos : Position) (line : Str) (st : Layout) : Result Layout :=
  let st := { st with parsed := st.parsed ++ [(pos.lineNo, line)] }
  match tokenize line with
  | [] => .ok st
  | first :: operands =>
      let directive := upper first
      if directive = lit ".GLOBAL" then
        match operands with
        | [] => pos.fail (lit ".GLOBAL exige símbolo")
        | name :: _ => .ok { st with globals := st.globals ++ [name] }
      else if directive = lit ".EXTERN" then
        match operands with
        | [] => pos.fail (lit ".EXTERN exige símbolo")
        | name :: _ => .ok { st with externs := st.externs ++ [name] }
      else if directive = lit ".WORD" then .ok (st.advance 2)
      else if directive = lit ".SPACE" then
        match operands with
        | [] => pos.fail (lit ".SPACE exige quantidade")
        | count :: _ => do .ok (st.advance (← parseNumber count))
      else if directive = lit ".BYTE" then .ok (st.advance 1)
      else if directive = lit ".ENTRY" then .ok st
      else
        match kInstrSizes.lookup directive with
        | none => pos.fail (lit "instrução desconhecida " ++ first)
        | some size => .ok (st.advance size)

def layoutLine (sourceName : Str) (st : Layout) (item : Int × Str) : Result Layout :=
  let pos : Position := ⟨sourceName, item.1⟩
  let line := trim (stripComment item.2)
  if line = [] then .ok st
  else
    let (label, rest) := splitLabel line
    if label = [] then layoutStatement pos line st
    else if (st.symbols.find? label).isSome then pos.fail (lit "símbolo duplicado " ++ label)
    else
      let st := { st with symbols := st.symbols.insert label st.pc }
      if rest = [] then .ok st else layoutStatement pos rest st

def numbered (lines : List Str) : List (Int × Str) :=
  (lines.zipIdx 1).map fun p => (p.2, p.1)

def firstPass (sourceName : Str) (lines : List Str) : Result Layout :=
  (numbered lines).foldlM (layoutLine sourceName) Layout.start

structure Emission where
  out : Output
  entry : Int
  pc : Int
  deriving DecidableEq

def clearBytes : Nat → Int → List UInt8 → Result (List UInt8)
  | 0, _, code => .ok code
  | n + 1, offset, code => do clearBytes n (offset + 1) (← store code offset 0)

def emitStatement (sourceName : Str) (names : Names) (st : Emission) (item : Int × Str) :
    Result Emission :=
  let pos : Position := ⟨sourceName, item.1⟩
  match tokenize item.2 with
  | [] => .ok st
  | first :: operands =>
      let op := upper first
      if op = lit ".GLOBAL" ∨ op = lit ".EXTERN" then .ok st
      else if op = lit ".ENTRY" then
        match operands with
        | [] => pos.fail (lit ".ENTRY exige símbolo")
        | sym :: _ =>
            match names.symbols.find? sym with
            | none => pos.fail (lit "símbolo de entry ausente " ++ sym)
            | some value => .ok { st with entry := value }
      else if op = lit ".BYTE" then
        match operands with
        | [] => pos.fail (lit ".BYTE exige valor")
        | value :: _ => do
            let out ← st.out.emitByte st.pc (toByte (← parseNumber value))
            .ok { st with out := out, pc := st.pc + 1 }
      else if op = lit ".WORD" then
        match operands with
        | [] => pos.fail (lit ".WORD exige valor/símbolo")
        | value :: _ => do
            let out ← emitAddress names pos st.pc value st.out
            .ok { st with out := out, pc := st.pc + 2 }
      else if op = lit ".SPACE" then
        match operands with
        | [] => pos.fail (lit ".SPACE exige quantidade")
        | count :: _ => do
            let count ← parseNumber count
            let code ← clearBytes count.toNat st.pc st.out.code
            .ok { st with out := { st.out with code := code }, pc := wrap64 (st.pc + count) }
      else do
        let args := splitArgs (trim (item.2.drop first.length))
        let (out, pc) ← encodeInstruction names pos st.pc op args st.out
        .ok { st with out := out, pc := pc }

def Emission.start (size : Nat) : Emission := ⟨⟨List.replicate size 0, []⟩, 0, 0⟩

def secondPass (sourceName : Str) (names : Names) (size : Nat) (parsed : List (Int × Str)) :
    Result Emission :=
  parsed.foldlM (emitStatement sourceName names) (Emission.start size)

def sortedNames (names : List Str) : List Str := (names.mergeSort (· ≤ ·)).dedup

def joinNames : List Str → Str
  | [] => []
  | [name] => name
  | name :: rest => name ++ lit ", " ++ joinNames rest

def assembleObject (lines : List Str) (moduleName sourceName : Str) : Result ObjectFile := do
  let layout ← firstPass sourceName lines
  let size ← codeSize layout.pc
  let names : Names := ⟨layout.symbols, layout.externs⟩
  let emission ← secondPass sourceName names size layout.parsed
  let undefined := layout.globals.filter fun g => (layout.symbols.find? g).isNone
  if undefined ≠ [] then
    .error (.thrown (sourceName ++ lit ": .GLOBAL sem definição: " ++ joinNames undefined))
  else
    .ok {
      module := moduleName
      size := emission.out.code.length
      code := emission.out.code
      symbols := layout.symbols
      globals := sortedNames layout.globals
      externs := sortedNames layout.externs
      entry := emission.entry
      relocations := emission.out.relocations }

def assembleLines {D : Type} (lines : List Str) (moduleName sourceName : Str) :
    Result (Value D) := do
  .ok (objectJson (← assembleObject lines moduleName sourceName))

end Wirth.Toolchain.Assembler

import Wirth.Toolchain.Object

namespace Wirth.Toolchain.Assembler

open Wirth.Lib

def kInstrSizes : List (Str × Int) :=
  [(lit "NOP", 1), (lit "HALT", 1), (lit "RET", 1), (lit "LOADI", 4), (lit "LOAD", 4),
    (lit "STORE", 4), (lit "ADD", 3), (lit "SUB", 3), (lit "MUL", 3), (lit "DIV", 3),
    (lit "MOV", 3), (lit "JMP", 3), (lit "JZ", 4), (lit "JNZ", 4), (lit "PRINT", 2)]

def opmap : List (Str × UInt8) :=
  [(lit "NOP", 0x00), (lit "HALT", 0x01), (lit "RET", 0x02), (lit "LOADI", 0x10),
    (lit "LOAD", 0x11), (lit "STORE", 0x12), (lit "ADD", 0x20), (lit "SUB", 0x21),
    (lit "MUL", 0x22), (lit "DIV", 0x23), (lit "MOV", 0x24), (lit "JMP", 0x30),
    (lit "JZ", 0x31), (lit "JNZ", 0x32), (lit "PRINT", 0x40)]

structure Position where
  sourceName : Str
  lineNo : Int

def Position.fail {α : Type} (pos : Position) (what : Str) : Result α :=
  .error (.thrown (pos.sourceName ++ lit ":" ++ decimal pos.lineNo ++ lit ": " ++ what))

structure Names where
  symbols : OrdMap Str Int
  externs : List Str

-- The output of the second pass: code and the places in it that hold an address.
structure Output where
  code : List UInt8
  relocations : List Reloc
  deriving DecidableEq

def emitU16 (code : List UInt8) (offset value : Int) : Result (List UInt8) :=
  storeU16 code offset value

def Output.emitByte (out : Output) (offset : Int) (b : UInt8) : Result Output := do
  .ok { out with code := ← store out.code offset b }

def Output.emitValue (out : Output) (offset value : Int) : Result Output := do
  .ok { out with code := ← emitU16 out.code offset value }

-- A symbol of the module leaves its offset in the field, an imported one leaves 0;
-- either way the field is entered in the relocation table.
def emitSymbolU16 (names : Names) (pos : Position) (offset : Int) (symbol : Str)
    (out : Output) : Result Output :=
  match names.symbols.find? symbol with
  | some value => do
      let out ← out.emitValue offset value
      .ok { out with relocations := out.relocations ++ [⟨offset, 2, symbol, 0⟩] }
  | none =>
      if symbol ∈ names.externs then do
        let out ← out.emitValue offset 0
        .ok { out with relocations := out.relocations ++ [⟨offset, 2, symbol, 0⟩] }
      else pos.fail (lit "símbolo indefinido " ++ symbol)

-- An address operand is a literal if it reads as one, and a symbol otherwise.
def emitAddress (names : Names) (pos : Position) (offset : Int) (text : Str)
    (out : Output) : Result Output :=
  if isNumber text then do
    out.emitValue offset (← parseNumber text)
  else emitSymbolU16 names pos offset text out

def emitRegister (offset : Int) (name : Str) (out : Output) : Result Output := do
  out.emitByte offset (toByte (← regIndex name))

def encodeInstruction (names : Names) (pos : Position) (pc : Int) (op : Str) (args : List Str)
    (out : Output) : Result (Output × Int) :=
  match opmap.lookup op with
  | none => pos.fail (lit "instrução não suportada " ++ op)
  | some opcode => do
      let out ← out.emitByte pc opcode
      if op = lit "NOP" ∨ op = lit "HALT" ∨ op = lit "RET" then .ok (out, pc + 1)
      else if op = lit "PRINT" then
        match args with
        | [r] => do
            let out ← emitRegister (pc + 1) r out
            .ok (out, pc + 2)
        | _ => pos.fail (lit "PRINT exige 1 argumento")
      else if op = lit "ADD" ∨ op = lit "SUB" ∨ op = lit "MUL" ∨ op = lit "DIV" ∨
          op = lit "MOV" then
        match args with
        | [a, b] => do
            let out ← emitRegister (pc + 1) a out
            let out ← emitRegister (pc + 2) b out
            .ok (out, pc + 3)
        | _ => pos.fail (op ++ lit " exige 2 argumentos")
      else if op = lit "LOADI" then
        match args with
        | [r, imm] => do
            let out ← emitRegister (pc + 1) r out
            let out ← out.emitValue (pc + 2) (← parseNumber imm)
            .ok (out, pc + 4)
        | _ => pos.fail (lit "LOADI exige 2 argumentos")
      else if op = lit "LOAD" ∨ op = lit "STORE" then
        match args with
        | [r, addr] => do
            let out ← emitRegister (pc + 1) r out
            let out ← emitAddress names pos (pc + 2) addr out
            .ok (out, pc + 4)
        | _ => pos.fail (op ++ lit " exige 2 argumentos")
      else if op = lit "JMP" then
        match args with
        | [target] => do
            let out ← emitAddress names pos (pc + 1) target out
            .ok (out, pc + 3)
        | _ => pos.fail (lit "JMP exige 1 argumento")
      else if op = lit "JZ" ∨ op = lit "JNZ" then
        match args with
        | [r, target] => do
            let out ← emitRegister (pc + 1) r out
            let out ← emitAddress names pos (pc + 2) target out
            .ok (out, pc + 4)
        | _ => pos.fail (op ++ lit " exige 2 argumentos")
      else pos.fail (lit "instrução não suportada " ++ op)

end Wirth.Toolchain.Assembler

import Wirth.Toolchain.Json.Parser
import Wirth.Toolchain.Object

namespace Wirth.Toolchain.Executor

open Wirth.Lib Wirth.Toolchain.Json

structure Machine where
  mem : List UInt8
  regs : List Int
  pc : Int
  deriving DecidableEq

inductive Instr where
  | nop
  | halt
  | ret
  | loadi (r : Nat) (imm : Int)
  | load (r : Nat) (addr : Int)
  | store (r : Nat) (addr : Int)
  | add (a b : Nat)
  | sub (a b : Nat)
  | mul (a b : Nat)
  | div (a b : Nat)
  | mov (a b : Nat)
  | jmp (addr : Int)
  | jz (r : Nat) (addr : Int)
  | jnz (r : Nat) (addr : Int)
  | print (r : Nat)
  deriving DecidableEq

def hexDigit (x : Nat) : UInt8 := (lit "0123456789ABCDEF").getD (x % 16) 0

def hexByte (op : UInt8) : Str := [hexDigit (op.toNat / 16), hexDigit op.toNat]

def hexWord (value : Int) : Str :=
  let low := (value % 65536).toNat
  [hexDigit (low / 4096), hexDigit (low / 256), hexDigit (low / 16), hexDigit low]

-- The operands of an instruction, in the order in which they are read.

def oneRegister (mem : List UInt8) (pc : Int) (make : Nat → Instr) : Result Instr := do
  let r ← load mem (pc + 1)
  .ok (make r.toNat)

def twoRegisters (mem : List UInt8) (pc : Int) (make : Nat → Nat → Instr) : Result Instr := do
  let a ← load mem (pc + 1)
  let b ← load mem (pc + 2)
  .ok (make a.toNat b.toNat)

def registerAndWord (mem : List UInt8) (pc : Int) (make : Nat → Int → Instr) : Result Instr := do
  let r ← load mem (pc + 1)
  let word ← loadU16 mem (pc + 2)
  .ok (make r.toNat word)

def decode (mem : List UInt8) (pc : Int) : Result Instr := do
  let op ← load mem pc
  if op = 0x00 then .ok .nop
  else if op = 0x01 then .ok .halt
  else if op = 0x02 then .ok .ret
  else if op = 0x10 then registerAndWord mem pc .loadi
  else if op = 0x11 then registerAndWord mem pc .load
  else if op = 0x12 then registerAndWord mem pc .store
  else if op = 0x20 then twoRegisters mem pc .add
  else if op = 0x21 then twoRegisters mem pc .sub
  else if op = 0x22 then twoRegisters mem pc .mul
  else if op = 0x23 then twoRegisters mem pc .div
  else if op = 0x24 then twoRegisters mem pc .mov
  else if op = 0x30 then do .ok (.jmp (← loadU16 mem (pc + 1)))
  else if op = 0x31 then registerAndWord mem pc .jz
  else if op = 0x32 then registerAndWord mem pc .jnz
  else if op = 0x40 then oneRegister mem pc .print
  else .error (.thrown (lit "opcode inválido: 0x" ++ hexByte op ++ lit " em pc=0x" ++ hexWord pc))

def readReg (regs : List Int) (r : Nat) : Result Int :=
  match regs[r]? with
  | some value => .ok value
  | none => .error .outOfBounds

def writeReg (regs : List Int) (r : Nat) (value : Int) : Result (List Int) :=
  if r < regs.length then .ok (regs.set r value) else .error .outOfBounds

-- What an instruction does: it stops the program, or it goes on, perhaps after printing.
inductive Effect where
  | stop (exitCode : Int)
  | next (m : Machine) (printed : Option Int)
  deriving DecidableEq

def arithmetic (f : Int → Int → Int) (a b : Nat) (m : Machine) : Result Effect := do
  let x ← readReg m.regs a
  let y ← readReg m.regs b
  let regs ← writeReg m.regs a (f x y % 65536)
  .ok (.next { m with regs := regs, pc := m.pc + 3 } none)

def execute (instr : Instr) (m : Machine) : Result Effect :=
  match instr with
  | .nop => .ok (.next { m with pc := m.pc + 1 } none)
  | .halt => .ok (.stop 0)
  | .ret => do .ok (.stop ((← readReg m.regs 0) % 256))
  | .loadi r imm => do
      let regs ← writeReg m.regs r imm
      .ok (.next { m with regs := regs, pc := m.pc + 4 } none)
  | .load r addr => do
      let value ← loadU16 m.mem addr
      let regs ← writeReg m.regs r value
      .ok (.next { m with regs := regs, pc := m.pc + 4 } none)
  | .store r addr => do
      let value ← readReg m.regs r
      let mem ← storeU16 m.mem addr value
      .ok (.next { m with mem := mem, pc := m.pc + 4 } none)
  | .add a b => arithmetic (· + ·) a b m
  | .sub a b => arithmetic (· - ·) a b m
  | .mul a b => arithmetic (· * ·) a b m
  | .div a b => do
      let y ← readReg m.regs b
      if y = 0 then .error (.thrown (lit "divisão por zero")) else arithmetic Int.tdiv a b m
  | .mov a b => do
      let y ← readReg m.regs b
      let regs ← writeReg m.regs a y
      .ok (.next { m with regs := regs, pc := m.pc + 3 } none)
  | .jmp addr => .ok (.next { m with pc := addr } none)
  | .jz r addr => do
      let x ← readReg m.regs r
      .ok (.next { m with pc := if x = 0 then addr else m.pc + 4 } none)
  | .jnz r addr => do
      let x ← readReg m.regs r
      .ok (.next { m with pc := if x ≠ 0 then addr else m.pc + 4 } none)
  | .print r => do
      let x ← readReg m.regs r
      .ok (.next { m with pc := m.pc + 2 } (some x))

def step (m : Machine) : Result Effect := do execute (← decode m.mem m.pc) m

structure Exit where
  exitCode : Int
  steps : Int
  registers : List Int
  deriving DecidableEq

structure Outcome where
  output : List Int
  result : Result Exit

def runFrom (maxSteps : Int) : Nat → Int → Machine → List Int → Outcome
  | 0, _, _, output =>
      ⟨output, .error (.thrown (lit "limite de passos excedido (" ++ decimal maxSteps ++ lit ")"))⟩
  | left + 1, steps, m, output =>
      match step m with
      | .error e => ⟨output, .error e⟩
      | .ok (.stop code) => ⟨output, .ok ⟨code, steps + 1, m.regs⟩⟩
      | .ok (.next m printed) => runFrom maxSteps left (steps + 1) m (output ++ printed.toList)

def run (maxSteps : Int) (m : Machine) : Outcome := runFrom maxSteps maxSteps.toNat 0 m []

def memorySize : Nat := 65536

def registerCount : Nat := 8

variable {D : Type} [Floating D]

def relocOffset (item : Value D) : Result Int := do
  (← atKey (← item.asObject) (lit "offset")).asInt

def relocate (base : Int) (code : List UInt8) (item : Value D) : Result (List UInt8) := do
  let off ← relocOffset item
  let value ← loadU16 code off
  storeU16 code off (wrap64 (value + base))

def imageAddress (image : List (Str × Value D)) : Result Int := do
  (← atKey image (lit "load_address")).asInt

def chooseBase (image : List (Str × Value D)) (loadAddress : Option Int) : Result Int :=
  match loadAddress with
  | some base => .ok base
  | none => imageAddress image

structure Plan (D : Type) where
  mode : Str
  code : List UInt8
  base : Int
  relocations : List (Value D)

-- An absolute image ignores a requested address and its relocations.
def readPlan (image : List (Str × Value D)) (loadAddress : Option Int) : Result (Plan D) := do
  let mode ← (← atKey image (lit "mode")).asString
  let code ← parseCode (← (← atKey image (lit "code")).asArray)
  if mode = absolute then .ok ⟨mode, code, ← imageAddress image, []⟩
  else
    let base ← chooseBase image loadAddress
    .ok ⟨mode, code, base, ← (← atKey image (lit "relocations")).asArray⟩

def placeInMemory (base : Int) (code : List UInt8) : Result (List UInt8) :=
  if base < 0 ∨ wrap64 (base + code.length) > memorySize then
    .error (.thrown (lit "imagem fora da memória da VM"))
  else copyTo (List.replicate memorySize 0) base code

def loadImage (image : List (Str × Value D)) (loadAddress : Option Int) : Result Machine := do
  let plan ← readPlan image loadAddress
  let code ← plan.relocations.foldlM (relocate plan.base) plan.code
  let mem ← placeInMemory plan.base code
  let entry ← (← atKey image (lit "entry")).asInt
  let pc := if plan.mode = relocatable then wrap64 (entry + plan.base) else entry
  .ok ⟨mem, List.replicate registerCount 0, pc⟩

def runImage (image : List (Str × Value D)) (loadAddress : Option Int) (maxSteps : Int) :
    Outcome :=
  match loadImage image loadAddress with
  | .error e => ⟨[], .error e⟩
  | .ok m => run maxSteps m

def executableMembers (exePath : Str) (data : Value D) : Result (List (Str × Value D)) := do
  let invalid : Fault := .thrown (lit "executável inválido: " ++ exePath)
  match data with
  | .obj image =>
      match image.lookup (lit "format") with
      | none => .error invalid
      | some format => do
          if (← format.asString) ≠ lit "wirth-exe-v1" then .error invalid else .ok image
  | _ => .error invalid

def runFile (exePath text : Str) (loadAddress : Option Int) (maxSteps : Int) : Outcome :=
  match (do executableMembers exePath (← parseText text) : Result (List (Str × Value D))) with
  | .error e => ⟨[], .error e⟩
  | .ok image => runImage image loadAddress maxSteps

end Wirth.Toolchain.Executor

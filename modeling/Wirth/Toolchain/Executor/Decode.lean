import Wirth.Toolchain.Assembler.Shape
import Wirth.Toolchain.Executor.Machine

namespace Wirth.Toolchain.Executor

open Wirth.Lib Wirth.Toolchain.Assembler

-- What an instruction is made of: the byte that selects it, its registers and its halfword.

def Instr.opcode : Instr → UInt8
  | .nop => 0x00
  | .halt => 0x01
  | .ret => 0x02
  | .loadi _ _ => 0x10
  | .load _ _ => 0x11
  | .store _ _ => 0x12
  | .add _ _ => 0x20
  | .sub _ _ => 0x21
  | .mul _ _ => 0x22
  | .div _ _ => 0x23
  | .mov _ _ => 0x24
  | .jmp _ => 0x30
  | .jz _ _ => 0x31
  | .jnz _ _ => 0x32
  | .print _ => 0x40

def Instr.registers : Instr → List Nat
  | .nop | .halt | .ret | .jmp _ => []
  | .loadi r _ | .load r _ | .store r _ | .jz r _ | .jnz r _ | .print r => [r]
  | .add a b | .sub a b | .mul a b | .div a b | .mov a b => [a, b]

def Instr.operand : Instr → Option Int
  | .loadi _ x | .load _ x | .store _ x | .jmp x | .jz _ x | .jnz _ x => some x
  | _ => none

def Instr.jumps (regs : List Int) : Instr → Bool
  | .jmp _ => true
  | .jz r _ => regs[r]? = some 0
  | .jnz r _ => regs[r]? ≠ some 0
  | _ => false

def shapeRegisters (mem : List UInt8) (p : Nat) : Shape → List Nat
  | .bare | .addr => []
  | .reg | .regImm | .regAddr => [(mem.getD (p + 1) 0).toNat]
  | .regReg => [(mem.getD (p + 1) 0).toNat, (mem.getD (p + 2) 0).toNat]

def shapeOperand (mem : List UInt8) (p : Nat) : Shape → Option Int
  | .bare | .reg | .regReg => none
  | .regImm | .regAddr => some (u16At mem (p + 2))
  | .addr => some (u16At mem (p + 1))

-- Reading operands that lie inside the memory.

section Operands

variable {mem : List UInt8} {p : Nat}

theorem load_at {i : Int} (hi : i = p) (h : p < mem.length) : load mem i = .ok (mem.getD p 0) :=
  load_eq_ok.mpr ⟨by omega, by rw [hi, Int.toNat_natCast]⟩

theorem loadU16_at {i : Int} (hi : i = p) (h : p + 1 < mem.length) :
    loadU16 mem i = .ok (u16At mem p : Int) :=
  loadU16_eq_ok.mpr ⟨by omega, by rw [hi, Int.toNat_natCast]⟩

theorem oneRegister_at (h : p + 2 ≤ mem.length) (make : Nat → Instr) :
    oneRegister mem p make = .ok (make (mem.getD (p + 1) 0).toNat) := by
  grind [load_at, oneRegister, ok_bind]

theorem twoRegisters_at (h : p + 3 ≤ mem.length) (make : Nat → Nat → Instr) :
    twoRegisters mem p make =
      .ok (make (mem.getD (p + 1) 0).toNat (mem.getD (p + 2) 0).toNat) := by
  grind [load_at, twoRegisters, ok_bind]

theorem registerAndWord_at (h : p + 4 ≤ mem.length) (make : Nat → Int → Instr) :
    registerAndWord mem p make =
      .ok (make (mem.getD (p + 1) 0).toNat (u16At mem (p + 2))) := by
  grind [load_at, loadU16_at, registerAndWord, ok_bind]

end Operands

-- The executor's switch reads back every instruction of the encoder's table, with the
-- operands where the shape says.
theorem decode_shape {mem : List UInt8} {p : Nat} {op : Str} {opcode : UInt8} {shape : Shape}
    (hop : opmap.lookup op = some opcode) (hs : shapes.lookup op = some shape)
    (hroom : p + shape.size ≤ mem.length) (hbyte : mem.getD p 0 = opcode) :
    ∃ instr, decode mem p = .ok instr ∧ instr.opcode = opcode ∧
      instr.registers = shapeRegisters mem p shape ∧ instr.operand = shapeOperand mem p shape := by
  have hload : load mem p = .ok opcode := by
    have : 0 < shape.size := by cases shape <;> decide
    exact load_eq_ok.mpr ⟨by omega, by simpa using hbyte⟩
  have hmem := mem_of_lookup hop
  simp only [opmap, List.mem_cons, Prod.mk.injEq, List.not_mem_nil, or_false] at hmem
  rcases hmem with ⟨rfl, rfl⟩ | ⟨rfl, rfl⟩ | ⟨rfl, rfl⟩ | ⟨rfl, rfl⟩ | ⟨rfl, rfl⟩ | ⟨rfl, rfl⟩ |
    ⟨rfl, rfl⟩ | ⟨rfl, rfl⟩ | ⟨rfl, rfl⟩ | ⟨rfl, rfl⟩ | ⟨rfl, rfl⟩ | ⟨rfl, rfl⟩ | ⟨rfl, rfl⟩ |
    ⟨rfl, rfl⟩ | ⟨rfl, rfl⟩
  all_goals obtain rfl := Option.some.inj hs
  -- One line for the neighbours in the table that have the same shape.
  iterate 3 exact ⟨_, by simp [decode, hload]; rfl, rfl, rfl, rfl⟩
  iterate 3 exact ⟨_, by simp [decode, hload, registerAndWord_at hroom]; rfl, rfl, rfl, rfl⟩
  iterate 5 exact ⟨_, by simp [decode, hload, twoRegisters_at hroom]; rfl, rfl, rfl, rfl⟩
  · have hword : loadU16 mem (p + 1) = .ok (u16At mem (p + 1) : Int) := loadU16_at (by omega) hroom
    exact ⟨_, by simp [decode, hload, hword]; rfl, rfl, rfl, rfl⟩
  iterate 2 exact ⟨_, by simp [decode, hload, registerAndWord_at hroom]; rfl, rfl, rfl, rfl⟩
  · exact ⟨_, by simp [decode, hload, oneRegister_at hroom]; rfl, rfl, rfl, rfl⟩

def opcodeSize (opcode : UInt8) : Int :=
  if opcode ≤ 0x02 then 1
  else if opcode = 0x40 then 2
  else if opcode = 0x30 ∨ 0x20 ≤ opcode ∧ opcode ≤ 0x24 then 3
  else 4

theorem kInstrSizes_opcodeSize {op : Str} {opcode : UInt8} (hop : opmap.lookup op = some opcode) :
    kInstrSizes.lookup op = some (opcodeSize opcode) := by
  have hall : ∀ p ∈ opmap, kInstrSizes.lookup p.1 = some (opcodeSize p.2) := by decide +kernel
  exact hall _ (mem_of_lookup hop)

theorem readReg_eq_ok {regs : List Int} {r : Nat} {x : Int} :
    readReg regs r = .ok x ↔ regs[r]? = some x := by
  unfold readReg
  split <;> simp_all

theorem writeReg_length {regs regs' : List Int} {r : Nat} {x : Int}
    (h : writeReg regs r x = .ok regs') : regs'.length = regs.length := by
  rw [writeReg, ite_ok_error_eq_ok] at h
  rw [← h.2, List.length_set]

structure Instr.Advances (instr : Instr) (m m' : Machine) : Prop where
  mem : m'.mem.length = m.mem.length
  regs : m'.regs.length = m.regs.length
  -- An instruction that does not jump is followed by the next one in memory.
  pc : instr.jumps m.regs = false → m'.pc = m.pc + opcodeSize instr.opcode

section Advances

variable {instr : Instr} {m m' : Machine} {printed : Option Int}

theorem arithmetic_advances {f : Int → Int → Int} {a b : Nat} (hsize : opcodeSize instr.opcode = 3)
    (h : arithmetic f a b m = .ok (.next m' printed)) : instr.Advances m m' := by
  simp only [arithmetic, bind_eq_ok, Except.ok.injEq, Effect.next.injEq] at h
  obtain ⟨x, _, y, _, regs, hregs, rfl, _⟩ := h
  exact ⟨rfl, writeReg_length hregs, fun _ => by rw [hsize]⟩

theorem execute_advances (h : execute instr m = .ok (.next m' printed)) : instr.Advances m m' := by
  cases instr with
  | nop | jmp addr =>
    cases h
    exact ⟨rfl, rfl, by simp [Instr.jumps, Instr.opcode, opcodeSize]⟩
  | halt => cases h
  | ret => grind [execute, bind_eq_ok]
  | loadi r imm =>
    simp only [execute, bind_eq_ok, Except.ok.injEq, Effect.next.injEq] at h
    obtain ⟨regs, hregs, rfl, _⟩ := h
    exact ⟨rfl, writeReg_length hregs, fun _ => rfl⟩
  | load r addr | mov a b =>
    simp only [execute, bind_eq_ok, Except.ok.injEq, Effect.next.injEq] at h
    obtain ⟨value, _, regs, hregs, rfl, _⟩ := h
    exact ⟨rfl, writeReg_length hregs, fun _ => rfl⟩
  | store r addr =>
    simp only [execute, bind_eq_ok, Except.ok.injEq, Effect.next.injEq] at h
    obtain ⟨value, _, mem, hmem, rfl, _⟩ := h
    exact ⟨storeU16_length hmem, rfl, fun _ => rfl⟩
  | add a b | sub a b | mul a b => exact arithmetic_advances rfl h
  | div a b =>
    simp only [execute, bind_eq_ok, ite_error_eq_ok] at h
    obtain ⟨y, _, _, h⟩ := h
    exact arithmetic_advances rfl h
  | jz r addr | jnz r addr =>
    simp only [execute, bind_eq_ok, readReg_eq_ok, Except.ok.injEq, Effect.next.injEq] at h
    obtain ⟨x, hx, rfl, _⟩ := h
    refine ⟨rfl, rfl, fun hj => ?_⟩
    simp only [Instr.jumps, hx, ne_eq, Option.some.injEq, decide_eq_false_iff_not] at hj
    simp only [if_neg hj]
    rfl
  | print r =>
    simp only [execute, bind_eq_ok, Except.ok.injEq, Effect.next.injEq] at h
    obtain ⟨x, _, rfl, _⟩ := h
    exact ⟨rfl, rfl, fun _ => rfl⟩

end Advances

end Wirth.Toolchain.Executor

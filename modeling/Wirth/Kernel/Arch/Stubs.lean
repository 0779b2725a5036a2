import Mathlib.Data.Fin.VecNotation
import Mathlib.Tactic.FinCases
import Wirth.Lib.X86.Cpu

namespace Wirth.Kernel.Arch

open Wirth.Lib.X86

-- The stubs of `interrupts.S`.

def irq0Stub : List Instr :=
  [.pusha, .cld, .pushEsp, .call, .addEsp 4, .movEaxEsp, .popa, .iret]

def genericStub (vector : Word) : List Instr :=
  [.pusha, .cld, .push vector, .pushEsp, .call, .addEsp 8, .movEaxEsp, .popa, .iret]

def irq1Stub : List Instr := genericStub 33

def irq2Stub : List Instr := genericStub 34

def irq3Stub : List Instr := genericStub 35

def irq4Stub : List Instr := genericStub 36

def irq5Stub : List Instr := genericStub 37

def irq6Stub : List Instr := genericStub 38

def irq7Stub : List Instr := genericStub 39

def irq8Stub : List Instr := genericStub 40

def irq9Stub : List Instr := genericStub 41

def irq10Stub : List Instr := genericStub 42

def irq11Stub : List Instr := genericStub 43

def irq12Stub : List Instr := genericStub 44

def irq13Stub : List Instr := genericStub 45

def irq14Stub : List Instr := genericStub 46

def irq15Stub : List Instr := genericStub 47

def irqStub : Fin 16 → List Instr :=
  ![irq0Stub, irq1Stub, irq2Stub, irq3Stub, irq4Stub, irq5Stub, irq6Stub, irq7Stub, irq8Stub,
    irq9Stub, irq10Stub, irq11Stub, irq12Stub, irq13Stub, irq14Stub, irq15Stub]

-- `irq0_handler(current_esp)` and `irq_generic_handler(current_esp, vector)`.
def argumentCount (line : Fin 16) : Nat := if line = 0 then 1 else 2

-- A handler that returns its first argument. It may use every register and the stack below its
-- arguments, these included; the words above them belong to the interrupted context.
structure ReturnsEsp (arguments : Nat) (s t : Cpu) : Prop where
  eax : t.regs.eax = s.memory s.esp
  esp : t.esp = s.esp
  cs : t.cs = s.cs
  ss : t.ss = s.ss
  frame : ∀ k < 13, t.memory (s.esp + BitVec.ofNat 32 (4 * (arguments + k))) =
    s.memory (s.esp + BitVec.ofNat 32 (4 * (arguments + k)))

section Stubs

variable {c s t : Cpu} {skipped : Word}

theorem contextWords_length : (contextWords c skipped).length ≤ 13 := by
  unfold contextWords
  split_ifs <;> simp

theorem ReturnsEsp.holds {arguments : Nat} {base : Word} (h : ReturnsEsp arguments s t)
    (hbase : s.esp + BitVec.ofNat 32 (4 * arguments) = base)
    (hs : Holds s.memory base (contextWords c skipped)) :
    Holds t.memory base (contextWords c skipped) := by
  apply hs.congr
  intro k hk
  have haddr : base + BitVec.ofNat 32 (4 * k) = s.esp + BitVec.ofNat 32 (4 * (arguments + k)) := by
    bv_omega
  rw [haddr]
  exact h.frame k (hk.trans_le contextWords_length)

-- The frame that the processor and `pusha` leave, before the stub pushes anything.
structure Entered (c s : Cpu) : Prop where
  holds : ∃ skipped, Holds s.memory s.esp (contextWords c skipped)
  ring : rpl s.cs = 0
  same : rpl c.cs = 0 → s.esp + 44 = c.esp ∧ s.ss = c.ss

theorem entered (g : Gate) (c : Cpu) : Entered c (c.interrupt g).pusha := by
  refine ⟨⟨_, c.entry_holds g⟩, g.kernel, ?_⟩
  intro hring
  obtain ⟨hesp, hss⟩ := Cpu.interrupt_same g hring
  refine ⟨?_, hss⟩
  simp only [Cpu.pusha, Cpu.pushAll, pushWords_snd, List.length_cons, List.length_nil]
  bv_omega

-- `irq0_stub` passes the address of the frame and takes it back.
theorem irq0Stub_resumes {handler : Cpu → Cpu} (g : Gate) (c : Cpu)
    (hhandler : ∀ s, ReturnsEsp 1 s (handler s)) :
    Resumes c (Cpu.exec handler irq0Stub (c.interrupt g)) := by
  obtain ⟨⟨skipped, hholds⟩, hring, hsame⟩ := entered g c
  simp only [Cpu.exec, irq0Stub, List.foldl_cons, List.foldl_nil, Cpu.step]
  generalize (c.interrupt g).pusha = s at hholds hring hsame ⊢
  have hlen := (@contextWords_length c skipped).trans_lt (by decide : 13 < 2 ^ 29)
  have h := hhandler ({ s with eflags := s.eflags &&& ~~~0x400 }.push s.esp)
  have heax : (handler ({ s with eflags := s.eflags &&& ~~~0x400 }.push s.esp)).regs.eax = s.esp := by
    rw [h.eax]
    exact Function.update_self ..
  apply resume
  · rw [h.cs]
    exact hring
  · rw [heax]
    exact h.holds (BitVec.sub_add_cancel s.esp 4) (hholds.below hlen)
  · intro hc
    rw [heax, h.ss]
    exact hsame hc

-- The other stubs pass the address of the vector number below the frame, and take that back:
-- everything is one word off, and the processor goes on at the address in `eax`.
theorem genericStub_eip {handler : Cpu → Cpu} (g : Gate) (c : Cpu) (vector : Word)
    (hhandler : ∀ s, ReturnsEsp 2 s (handler s)) :
    (Cpu.exec handler (genericStub vector) (c.interrupt g)).eip = c.regs.eax := by
  obtain ⟨⟨skipped, hholds⟩, hring, hsame⟩ := entered g c
  simp only [Cpu.exec, genericStub, List.foldl_cons, List.foldl_nil, Cpu.step]
  generalize (c.interrupt g).pusha = s at hholds hring hsame ⊢
  have hlen := (@contextWords_length c skipped).trans_lt (by decide : 13 < 2 ^ 28)
  generalize hu : Cpu.push _ (Cpu.push vector _) = u
  have hesp : u.esp = s.esp - 4 - 4 := by
    rw [← hu]
    rfl
  have hmemory : u.memory = Function.update (Function.update s.memory (s.esp - 4) vector)
      (s.esp - 4 - 4) (s.esp - 4) := by
    rw [← hu]
    rfl
  have h := hhandler u
  have heax : (handler u).regs.eax = s.esp - 4 := by
    rw [h.eax, hmemory, hesp, Function.update_self]
  have hbelow : Holds u.memory s.esp (contextWords c skipped) := by
    have hvector := hholds.push (w := vector) (by omega)
    have hboth := (hvector.below (w := s.esp - 4) (by rw [List.length_cons]; omega)).2
    rw [BitVec.sub_add_cancel, ← hmemory] at hboth
    exact hboth
  have hword := (h.holds (by bv_omega) hbelow).get (k := 7) rfl
  have haddr : s.esp - 4 + 32 = s.esp + BitVec.ofNat 32 (4 * 7) := by bv_omega
  rw [Cpu.iret_eip]
  change (handler u).memory ((handler u).regs.eax + 32) = _
  rw [heax, haddr]
  exact hword

theorem irqStub_generic {line : Fin 16} (h : line ≠ 0) : ∃ vector, irqStub line = genericStub vector := by
  fin_cases line
  · exact absurd rfl h
  all_goals exact ⟨_, rfl⟩

def echoEsp (s : Cpu) : Cpu := { s with regs := { s.regs with eax := s.memory s.esp } }

theorem echoEsp_returns (arguments : Nat) (s : Cpu) : ReturnsEsp arguments s (echoEsp s) :=
  ⟨rfl, rfl, rfl, rfl, fun _ _ => rfl⟩

def kernelGate : Gate := ⟨0x08, 0x00100000, 0x10, 0x00180000, by decide⟩

def kernelContext : Cpu :=
  ⟨⟨7, 0, 0, 0, 0, 0, 0⟩, 0x00170000, 0x00101000, 0x08, 0x10, 0x202, fun _ => 0⟩

-- Only the timer's stub gives the processor back as it was.
theorem irq_stub_transparent_iff (line : Fin 16) :
    (∀ (g : Gate) (c : Cpu) (handler : Cpu → Cpu),
      (∀ s, ReturnsEsp (argumentCount line) s (handler s)) →
        Resumes c (Cpu.exec handler (irqStub line) (c.interrupt g))) ↔ line = 0 := by
  constructor
  · intro hall
    by_contra hline
    obtain ⟨vector, hstub⟩ := irqStub_generic hline
    have hsame := (hall kernelGate kernelContext echoEsp (echoEsp_returns _)).eip
    rw [hstub, genericStub_eip kernelGate kernelContext vector (echoEsp_returns 2)] at hsame
    exact absurd hsame (by decide)
  · rintro rfl g c handler hhandler
    have hstub : irqStub 0 = irq0Stub := rfl
    rw [hstub]
    exact irq0Stub_resumes g c hhandler

-- A key is pressed while the kernel runs at 0x101000: the processor goes on at address 7.
theorem keyboard_interrupt_lost :
    (Cpu.exec echoEsp (irqStub 1) (kernelContext.interrupt kernelGate)).eip = 7 ∧
      kernelContext.eip = 0x00101000 := by
  have hstub : irqStub 1 = genericStub 33 := rfl
  have heip := genericStub_eip kernelGate kernelContext 33 (echoEsp_returns 2)
  rw [hstub, heip]
  exact ⟨rfl, rfl⟩

end Stubs

end Wirth.Kernel.Arch

import Wirth.Kernel.Arch.Stubs
import Wirth.Kernel.Task.Waiting

namespace Wirth.Kernel.Scheduler

open Wirth.Lib Wirth.Lib.X86 Wirth.Kernel.Arch

def frameWords (image : Image) (x : Task) : List Word :=
  if x.ring = 3 then ring3IretWords x.userEntry x.userEsp0 else setupInitialTaskStackWords image

-- A task starts as it should: where the processor goes on, and that it got there by words of the
-- frame, which begins at the top of the task's stack.
structure Starts (image : Image) (x : Task) (top : Word) (before after : Cpu) : Prop where
  eip : after.eip = if x.ring = 3 then x.userEntry else image.taskEntryTrampoline
  cs : after.cs = if x.ring = 3 then 0x1B else 0x08
  eflags : after.eflags = 0x202
  user : x.ring = 3 → after.ss = 0x23 ∧ after.esp = x.userEsp0
  built : ∀ k < before.popped, ∃ l : Nat,
    before.esp + BitVec.ofNat 32 (4 * k) = top - BitVec.ofNat 32 (4 * (l + 1)) ∧
    (frameWords image x)[l]? = some (before.memory (before.esp + BitVec.ofNat 32 (4 * k)))

structure Returns (r : Word × Sched) (handler : Cpu → Cpu) : Prop where
  eax : ∀ s, (handler s).regs.eax = r.1
  cs : ∀ s, (handler s).cs = s.cs
  memory : ∀ s, ∀ k < 13, (handler s).memory (r.1 + BitVec.ofNat 32 (4 * k)) =
    r.2.memory (r.1 + BitVec.ofNat 32 (4 * k))

def atPopa (handler : Cpu → Cpu) (c : Cpu) : Cpu := c.exec handler (irq0Stub.take 6)

section Frames

variable {r : Word × Sched} {handler : Cpu → Cpu} {ws : List Word}

theorem irq0Stub_exec (handler : Cpu → Cpu) (c : Cpu) :
    c.exec handler irq0Stub = (atPopa handler c).popa.iret := rfl

theorem Returns.atPopa_esp (h : Returns r handler) (c : Cpu) : (atPopa handler c).esp = r.1 :=
  h.eax _

theorem Returns.atPopa_cs (h : Returns r handler) (g : Gate) (c : Cpu) :
    rpl (atPopa handler (c.interrupt g)).cs = 0 := by
  have hcs : (atPopa handler (c.interrupt g)).cs = g.selector := h.cs _
  rw [hcs]
  exact g.kernel

theorem Returns.atPopa_holds (h : Returns r handler) (c : Cpu) (hlen : ws.length ≤ 13)
    (hr : X86.Holds r.2.memory r.1 ws) : X86.Holds (atPopa handler c).memory r.1 ws := by
  apply hr.congr
  intro k hk
  exact h.memory _ k (lt_of_lt_of_le hk hlen)

theorem built_of_holds {m : Word → Word} {sp top : Word} {k : Nat} (h : X86.Holds m sp ws.reverse)
    (htop : sp = top - BitVec.ofNat 32 (4 * ws.length)) (hk : k < ws.length) :
    ∃ l : Nat, sp + BitVec.ofNat 32 (4 * k) = top - BitVec.ofNat 32 (4 * (l + 1)) ∧
      ws[l]? = some (m (sp + BitVec.ofNat 32 (4 * k))) := by
  refine ⟨ws.length - 1 - k, ?_, ?_⟩
  · 
    bv_omega
  · have hget : ws.reverse[k]? = ws[ws.length - 1 - k]? := List.getElem?_reverse hk
    have hlt : ws.length - 1 - k < ws.length := by omega
    rw [List.getElem?_eq_getElem hlt] at hget
    rw [h.get hget, List.getElem?_eq_getElem hlt]

theorem starts_kernel {image : Image} {x : Task} {top : Word} {c : Cpu} (hring : x.ring = 0)
    (hcs : rpl c.cs = 0) (hesp : c.esp = top - 44)
    (h : X86.Holds c.memory c.esp (setupInitialTaskStackWords image).reverse) :
    Starts image x top c c.popa.iret := by
  have hne : x.ring ≠ 3 := by
    rw [hring]
    decide
  have hwords : frameWords image x = setupInitialTaskStackWords image := if_neg hne
  have hselector : rpl kKernelCodeSelector = 0 := by decide
  obtain ⟨heq, -⟩ := @Cpu.popa_iret c 0 ⟨0, 0, 0, 0, 0, 0, 0⟩ image.taskEntryTrampoline
    kKernelCodeSelector kEflagsInterruptEnabled [] h
  have hpopped : c.popped = 11 := by
    have hcode : c.memory (c.esp + 36) = kKernelCodeSelector := h.get (k := 9) rfl
    rw [Cpu.popped, hcode, hselector, hcs]
    rfl
  rw [heq]
  refine ⟨(if_neg hne).symm, (if_neg hne).symm, rfl, fun h3 => absurd h3 hne, ?_⟩
  rw [hpopped, hwords]
  intro k hk
  exact built_of_holds h hesp hk

-- The registers come last in the frame of a task in ring 3, so that `popa` takes the return
-- address and `iret` finds zeros.
theorem ring3_frame {c : Cpu} {entry esp : Word}
    (h : X86.Holds c.memory c.esp (ring3IretWords entry esp).reverse) :
    c.popa.iret.eip = 0 ∧ c.popa.iret.cs = 0 ∧ c.popa.iret.eflags = 0 := by
  obtain ⟨heq, -⟩ := @Cpu.popa_iret c esp ⟨0, 0, 0, 0x23, 0x202, 0x1B, entry⟩ 0 0 0 [0, 0] h
  simpa [if_neg, heq] using ⟨rfl, rfl, rfl⟩

end Frames

namespace Trace

variable {image : Image} {t : Trace} {virtToPhys : Word → Word} {currentEsp tickCount : Word}

theorem Begun.first (h : t.Begun image) {next : Fin kMaxTasks}
    (htick : Ticked image t virtToPhys currentEsp tickCount next) (hfirst : t.ran next = false) :
    ((t.sched.tasks next).ring = 0 ∧
      (t.sched.onTimerInterrupt virtToPhys currentEsp tickCount).1 =
        BitVec.ofNat 32 (t.stackOf next).stop - 44 ∧
      X86.Holds (t.sched.onTimerInterrupt virtToPhys currentEsp tickCount).2.memory
        (t.sched.onTimerInterrupt virtToPhys currentEsp tickCount).1
        (setupInitialTaskStackWords image).reverse) ∨
    ((t.sched.tasks next).ring = 3 ∧
      X86.Holds (t.sched.onTimerInterrupt virtToPhys currentEsp tickCount).2.memory
        (t.sched.onTimerInterrupt virtToPhys currentEsp tickCount).1
        (ring3IretWords (t.sched.tasks next).userEntry (t.sched.tasks next).userEsp0).reverse) := by
  have hother : next ≠ t.sched.currentTask := by
    rintro rfl
    rw [h.ran] at hfirst
    cases hfirst
  have hlive := htick.tick.chosen.resolve_left hother
  obtain ⟨hmem, hwaiting⟩ := h.waiting next hlive hfirst
  have hsaved : t.sched.espAt currentEsp next = (t.sched.tasks next).savedEsp := if_neg hother
  cases htick.tick.outcome with
  | stuck _ hzero => exact absurd hzero (hwaiting.esp_ne (h.stands _ hmem))
  | goesOn hesp hmemory hsame hstarted =>
    cases hwaiting with
    | kernel hring hkernel hframe =>
      grind
    | user hring huser hnot =>
      grind
  | starts hne hring hstarted hesp hmemory hstarts =>
    refine .inr ⟨hring, ?_⟩
    rw [hesp, hmemory]
    have hholds := @pushWords_holds t.sched.memory (t.sched.espAt currentEsp next)
      (ring3IretWords (t.sched.tasks next).userEntry (t.sched.tasks next).userEsp0) [] trivial
      (by simp [ring3IretWords])
    rw [pushWords_snd, List.append_nil] at hholds
    exact hholds

def returning (r : Word × Sched) (c : Cpu) : Cpu :=
  { c with regs := { c.regs with eax := r.1 }, memory := r.2.memory }

theorem returning_returns (r : Word × Sched) : Returns r (returning r) :=
  ⟨fun _ => rfl, fun _ => rfl, fun _ _ _ => rfl⟩

def idling : Cpu := ⟨⟨0, 0, 0, 0, 0, 0, 0⟩, 0x002FFF40, 0x00102345, 0x08, 0x10, 0x202, fun _ => 0⟩

def firstProgram : Action := .createRing3Task none 0x08048000 0xBFFF0FF0 0xD0003000 0xD0000010

end Trace

end Wirth.Kernel.Scheduler

import Wirth.Lib.Blocks
import Wirth.Lib.X86.Paging

namespace Wirth.Lib.X86

structure Registers where
  eax : Word
  ecx : Word
  edx : Word
  ebx : Word
  ebp : Word
  esi : Word
  edi : Word

-- The 32-bit processor as far as stacks and interrupts need it. Memory is read and written in
-- words, each at the address of its first byte.
structure Cpu where
  regs : Registers
  esp : Word
  eip : Word
  cs : Word
  ss : Word
  eflags : Word
  memory : Word → Word

def rpl (selector : Word) : Word := selector &&& 3

-- An entry of the interrupt table, with the stack that the task state segment names.
structure Gate where
  selector : Word
  offset : Word
  ss0 : Word
  esp0 : Word
  kernel : rpl selector = 0

inductive Instr where
  | pusha
  | popa
  | cld
  | push (w : Word)
  | pushEsp
  | addEsp (w : Word)
  | movEaxEsp
  | call
  | iret

def pushWords (m : Word → Word) (sp : Word) : List Word → (Word → Word) × Word
  | [] => (m, sp)
  | w :: ws => pushWords (Function.update m (sp - 4) w) (sp - 4) ws

namespace Cpu

def push (w : Word) (s : Cpu) : Cpu :=
  { s with esp := s.esp - 4, memory := Function.update s.memory (s.esp - 4) w }

def pushAll (ws : List Word) (s : Cpu) : Cpu :=
  { s with esp := (pushWords s.memory s.esp ws).2, memory := (pushWords s.memory s.esp ws).1 }

def interrupt (g : Gate) (s : Cpu) : Cpu :=
  let s' := if rpl s.cs = 0 then s.pushAll [s.eflags, s.cs, s.eip]
    else { s with esp := g.esp0, ss := g.ss0 }.pushAll [s.ss, s.esp, s.eflags, s.cs, s.eip]
  { s' with cs := g.selector, eip := g.offset, eflags := s.eflags &&& ~~~0x200 }

def pusha (s : Cpu) : Cpu :=
  s.pushAll [s.regs.eax, s.regs.ecx, s.regs.edx, s.regs.ebx, s.esp, s.regs.ebp, s.regs.esi,
    s.regs.edi]

def popa (s : Cpu) : Cpu :=
  { s with
    regs :=
      { edi := s.memory s.esp
        esi := s.memory (s.esp + 4)
        ebp := s.memory (s.esp + 8)
        ebx := s.memory (s.esp + 16)
        edx := s.memory (s.esp + 20)
        ecx := s.memory (s.esp + 24)
        eax := s.memory (s.esp + 28) }
    esp := s.esp + 32 }

-- A return to a less privileged level also takes the stack from the frame.
def iret (s : Cpu) : Cpu :=
  let s' := { s with
    eip := s.memory s.esp
    cs := s.memory (s.esp + 4)
    eflags := s.memory (s.esp + 8)
    esp := s.esp + 12 }
  if rpl s.cs < rpl s'.cs then
    { s' with esp := s.memory (s.esp + 12), ss := s.memory (s.esp + 16) }
  else s'

def popped (s : Cpu) : Nat := 8 + if rpl s.cs < rpl (s.memory (s.esp + 36)) then 5 else 3

def step (callee : Cpu → Cpu) (s : Cpu) : Instr → Cpu
  | .pusha => s.pusha
  | .popa => s.popa
  | .cld => { s with eflags := s.eflags &&& ~~~0x400 }
  | .push w => s.push w
  | .pushEsp => s.push s.esp
  | .addEsp w => { s with esp := s.esp + w }
  | .movEaxEsp => { s with esp := s.regs.eax }
  | .call => callee s
  | .iret => s.iret

def exec (callee : Cpu → Cpu) (code : List Instr) (s : Cpu) : Cpu := code.foldl (step callee) s

end Cpu

def Holds (m : Word → Word) : Word → List Word → Prop
  | _, [] => True
  | a, w :: ws => m a = w ∧ Holds m (a + 4) ws

section Stack

variable {m : Word → Word} {a b w : Word} {ws : List Word}

theorem Holds.congr {m' : Word → Word} (h : Holds m a ws)
    (hsame : ∀ k < ws.length, m' (a + BitVec.ofNat 32 (4 * k)) = m (a + BitVec.ofNat 32 (4 * k))) :
    Holds m' a ws := by
  induction ws generalizing a with
  | nil => trivial
  | cons w ws ih =>
    refine ⟨?_, ih h.2 ?_⟩
    · have hfirst := hsame 0 (Nat.succ_pos _)
      rw [Nat.mul_zero, BitVec.add_zero] at hfirst
      rw [hfirst, h.1]
    · intro k hk
      have hnext := hsame (k + 1) (Nat.succ_lt_succ hk)
      have haddr : a + 4 + BitVec.ofNat 32 (4 * k) = a + BitVec.ofNat 32 (4 * (k + 1)) := by
        bv_omega
      rw [haddr]
      exact hnext

theorem Holds.get {k : Nat} (h : Holds m a ws) (hk : ws[k]? = some w) :
    m (a + BitVec.ofNat 32 (4 * k)) = w := by
  induction ws generalizing a k with
  | nil => simp at hk
  | cons v ws ih =>
    cases k with
    | zero =>
      rw [List.getElem?_cons_zero, Option.some.injEq] at hk
      rw [Nat.mul_zero, BitVec.add_zero, h.1, hk]
    | succ k =>
      have haddr : a + BitVec.ofNat 32 (4 * (k + 1)) = a + 4 + BitVec.ofNat 32 (4 * k) := by
        bv_omega
      rw [haddr]
      exact ih h.2 hk

theorem Holds.below (h : Holds m a ws) (hlen : ws.length < 2 ^ 29) :
    Holds (Function.update m (a - 4) w) a ws := by
  apply h.congr
  intro k hk
  apply Function.update_of_ne
  bv_omega

theorem Holds.push (h : Holds m a ws) (hlen : ws.length < 2 ^ 29) :
    Holds (Function.update m (a - 4) w) (a - 4) (w :: ws) := by
  refine ⟨Function.update_self .., ?_⟩
  rw [BitVec.sub_add_cancel]
  exact h.below hlen

theorem pushWords_holds {vs : List Word} (h : Holds m a vs) (hlen : ws.length + vs.length < 2 ^ 29) :
    Holds (pushWords m a ws).1 (pushWords m a ws).2 (ws.reverse ++ vs) := by
  induction ws generalizing m a vs with
  | nil => exact h
  | cons w ws ih =>
    rw [List.reverse_cons, List.append_assoc]
    exact ih (h.push (by omega)) (by grind)

theorem pushWords_snd (m : Word → Word) (a : Word) (ws : List Word) :
    (pushWords m a ws).2 = a - BitVec.ofNat 32 (4 * ws.length) := by
  induction ws generalizing m a with
  | nil => exact (BitVec.sub_zero a).symm
  | cons w ws ih =>
    rw [pushWords, ih, List.length_cons]
    bv_omega

theorem pushWords_other (h : ∀ k < ws.length, b ≠ a - BitVec.ofNat 32 (4 * (k + 1))) :
    (pushWords m a ws).1 b = m b := by
  induction ws generalizing m a with
  | nil => rfl
  | cons w ws ih =>
    have hrest : (pushWords (Function.update m (a - 4) w) (a - 4) ws).1 b =
        Function.update m (a - 4) w b := by
      apply ih
      intro k hk
      have := h (k + 1) (Nat.succ_lt_succ hk)
      bv_omega
    rw [pushWords, hrest]
    exact Function.update_of_ne (h 0 (Nat.succ_pos _)) ..

theorem pushWords_outside {c : Block} (hsize : 4 * ws.length ≤ c.size) (hstop : c.stop < 2 ^ 32)
    (hb : ¬c.Holds b.toNat) : (pushWords m (BitVec.ofNat 32 c.stop) ws).1 b = m b := by
  grind [pushWords_other, Block.Holds, Block.stop]

end Stack

-- The words that an interrupted context leaves on the stack of the handler, up to `pusha`.
def contextWords (c : Cpu) (skipped : Word) : List Word :=
  [c.regs.edi, c.regs.esi, c.regs.ebp, skipped, c.regs.ebx, c.regs.edx, c.regs.ecx, c.regs.eax,
    c.eip, c.cs, c.eflags] ++ if rpl c.cs = 0 then [] else [c.esp, c.ss]

-- The processor goes on where it was, with everything but memory as it was.
def Resumes (c t : Cpu) : Prop := { t with memory := c.memory } = c

section Contexts

variable {c t : Cpu} {skipped : Word}

theorem Resumes.eip (h : Resumes c t) : t.eip = c.eip := by
  rw [← h]

theorem Cpu.interrupt_regs (g : Gate) (c : Cpu) : (c.interrupt g).regs = c.regs := by
  unfold interrupt
  split_ifs <;> rfl

theorem Cpu.interrupt_same (g : Gate) {c : Cpu} (hring : rpl c.cs = 0) :
    (c.interrupt g).esp + 12 = c.esp ∧ (c.interrupt g).ss = c.ss := by
  simp only [interrupt, hring, if_true, pushAll, pushWords_snd, List.length_cons, List.length_nil,
    and_true]
  bv_omega

theorem Cpu.interrupt_holds (g : Gate) (c : Cpu) :
    Holds (c.interrupt g).memory (c.interrupt g).esp
      ([c.eip, c.cs, c.eflags] ++ if rpl c.cs = 0 then [] else [c.esp, c.ss]) := by
  by_cases hring : rpl c.cs = 0
  · simp only [interrupt, hring, if_true]
    exact @pushWords_holds _ _ [c.eflags, c.cs, c.eip] [] trivial (by simp)
  · simp only [interrupt, hring, if_false]
    exact @pushWords_holds _ _ [c.ss, c.esp, c.eflags, c.cs, c.eip] [] trivial (by simp)

theorem Cpu.entry_holds (g : Gate) (c : Cpu) :
    Holds (c.interrupt g).pusha.memory (c.interrupt g).pusha.esp
      (contextWords c (c.interrupt g).esp) := by
  have h := @pushWords_holds _ _ [c.regs.eax, c.regs.ecx, c.regs.edx, c.regs.ebx,
    (c.interrupt g).esp, c.regs.ebp, c.regs.esi, c.regs.edi] _ (c.interrupt_holds g)
    (by split_ifs <;> simp)
  rw [pusha, interrupt_regs]
  exact h

theorem Cpu.iret_eip (s : Cpu) : s.iret.eip = s.memory s.esp := by
  simp only [iret]
  split_ifs <;> rfl

-- The end of every handler, on a stack that holds the words of a context.
theorem Cpu.popa_iret {r : Registers} {eip cs eflags : Word} {rest : List Word}
    (h : Holds t.memory t.esp ([r.edi, r.esi, r.ebp, skipped, r.ebx, r.edx, r.ecx, r.eax,
      eip, cs, eflags] ++ rest)) :
    t.popa.iret =
      (if rpl t.cs < rpl cs then
        ⟨r, t.memory (t.esp + 44), eip, cs, t.memory (t.esp + 48), eflags, t.memory⟩
      else ⟨r, t.esp + 44, eip, cs, t.ss, eflags, t.memory⟩) ∧
      Holds t.memory (t.esp + 44) rest := by
  simp only [List.cons_append, List.nil_append, Holds, BitVec.add_assoc, BitVec.ofNat_eq_ofNat,
    BitVec.reduceAdd] at h
  obtain ⟨hedi, hesi, hebp, -, hebx, hedx, hecx, heax, heip, hcs, heflags, hrest⟩ := h
  refine ⟨?_, hrest⟩
  simp only [iret, popa, BitVec.add_assoc, BitVec.ofNat_eq_ofNat, BitVec.reduceAdd, hedi, hesi,
    hebp, hebx, hedx, hecx, heax, heip, hcs, heflags]

-- A context is resumed from its words. In the ring of the handler the stack is found at their
-- end.
theorem resume (hring : rpl t.cs = 0) (h : Holds t.memory t.esp (contextWords c skipped))
    (hsame : rpl c.cs = 0 → t.esp + 44 = c.esp ∧ t.ss = c.ss) : Resumes c t.popa.iret := by
  obtain ⟨heq, hrest⟩ := Cpu.popa_iret h
  rw [heq, Resumes, hring]
  by_cases hc : rpl c.cs = 0
  · obtain ⟨hesp, hss⟩ := hsame hc
    rw [if_neg (by rw [hc]; decide), hesp, hss]
  · rw [if_neg hc] at hrest
    obtain ⟨hesp, hss, -⟩ := hrest
    rw [BitVec.add_assoc] at hss
    rw [if_pos (by bv_omega), hesp]
    exact hss ▸ rfl

end Contexts

end Wirth.Lib.X86

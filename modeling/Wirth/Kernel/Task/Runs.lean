import Wirth.Kernel.Task.Effects

namespace Wirth.Kernel.Scheduler

open Wirth.Lib Wirth.Lib.X86

-- What happens to the scheduler. A creation comes with the page directory and the stack that the
-- heap finds for it, a tick with the page tables of that moment.
inductive Action where
  | createKernelTask (entry stackSize stack : Word)
  | createProcessTask (name : Option Str) (entry stackSize clone stack : Word)
  | createRing3Task (name : Option Str) (entryPoint userEsp0 clone stack : Word)
  | sleepCurrent (ticks nowTick : Word)
  | exitCurrent
  | timer (virtToPhys : Word → Word) (currentEsp tickCount : Word)

namespace Action

def isCreation : Action → Bool
  | createKernelTask .. | createProcessTask .. | createRing3Task .. => true
  | _ => false

def isTimer : Action → Bool
  | timer .. => true
  | _ => false

def tickEsp : Action → Option Word
  | timer _ currentEsp _ => some currentEsp
  | _ => none

def stack : Action → Option Block
  | createKernelTask _ stackSize stack | createProcessTask _ _ stackSize _ stack =>
      if stack = 0 then none else some ⟨stack.toNat, (Sched.stackBytes stackSize).toNat⟩
  | createRing3Task _ _ _ _ stack => if stack = 0 then none else some ⟨stack.toNat, 4096⟩
  | _ => none

def makesProcess : Action → Bool
  | createProcessTask .. | createRing3Task .. => true
  | _ => false

def EntryGiven : Action → Prop
  | createProcessTask _ entry _ _ _ => entry ≠ 0
  | _ => True

-- The page directory that the heap finds for a new process, or null.
def clone : Action → Word
  | createProcessTask _ _ _ clone _ | createRing3Task _ _ _ clone _ => clone
  | _ => 0

end Action

def Sched.act (image : Image) (s : Sched) : Action → Sched
  | .createKernelTask entry stackSize stack => (s.createKernelTask image entry stackSize stack).2
  | .createProcessTask name entry stackSize clone stack =>
      (s.createProcessTask image name entry stackSize clone stack).2
  | .createRing3Task name entryPoint userEsp0 clone stack =>
      (s.createRing3Task image name entryPoint userEsp0 clone stack).2
  | .sleepCurrent ticks nowTick => s.sleepCurrent ticks nowTick
  | .exitCurrent => s.exitCurrent
  | .timer virtToPhys currentEsp tickCount => (s.onTimerInterrupt virtToPhys currentEsp tickCount).2

def Sched.outcome (image : Image) (s : Sched) : Action → Word
  | .createKernelTask entry stackSize stack => (s.createKernelTask image entry stackSize stack).1
  | .createProcessTask name entry stackSize clone stack =>
      (s.createProcessTask image name entry stackSize clone stack).1
  | .createRing3Task name entryPoint userEsp0 clone stack =>
      (s.createRing3Task image name entryPoint userEsp0 clone stack).1
  | _ => 0

def Sched.created (image : Image) (s : Sched) (a : Action) : Option (Fin kMaxTasks) :=
  if (s.act image a).nextTid = s.nextTid then none else s.allocTaskSlot

theorem Sched.created_none {image : Image} {s : Sched} {a : Action}
    (h : (s.act image a).nextTid = s.nextTid) : s.created image a = none := by
  rw [created, if_pos h]

inductive NewTask (image : Image) (s : Sched) (b : Block) (t : Task) : (Word → Word) → Prop
  | kernel (hring : t.ring = 0) (hesp : t.savedEsp = BitVec.ofNat 32 b.stop - 44) :
      NewTask image s b t
        (pushWords s.memory (BitVec.ofNat 32 b.stop) (setupInitialTaskStackWords image)).1
  | user (hring : t.ring = 3) (hesp : t.savedEsp = BitVec.ofNat 32 b.stop)
      (htop : t.kernelStackTop = BitVec.ofNat 32 b.stop) : NewTask image s b t s.memory

-- A new task goes into a process that exists or into one that is entered with it.
inductive Host (s : Sched) (j : Fin kMaxProcesses) : Sched → Prop
  | existing : Host s j s
  | entered (p : Process) (hfree : (s.processes j).used = false) (hused : p.used = true)
      (hpid : p.pid = s.nextPid) (hlive : p.liveThreads = 0) (hspace : p.addressSpace ≠ 0) :
      Host s j (s.opened j p)

namespace Sched

def GetsTask (s : Sched) (a : Action) : Prop :=
  a.EntryGiven ∧ a.stack ≠ none ∧ s.allocTaskSlot ≠ none

-- The task that a creation enters, and what stands on its stack.
structure Enters (image : Image) (s : Sched) (a : Action) (i : Fin kMaxTasks) (b : Block) (x : Task)
    (m : Word → Word) : Prop where
  slot : s.allocTaskSlot = some i
  entry : a.EntryGiven
  stack : a.stack = some b
  size : 4096 ≤ b.size
  new : NewTask image s b x m
  runnable : x.state = .runnable
  tid : x.tid = s.nextTid
  notStarted : x.userStarted = false

-- What a creation can do, with what it returns.
inductive Attempt (image : Image) (s : Sched) (a : Action) : Word → Sched → Prop
  | refused {s' : Sched}
      (hroom : firstSlot (fun p => !p.used) s.processes = none ∨ a.clone = 0)
      (h : Unspoiled s s') : Attempt image s a (-1) s'
  | kernel {i : Fin kMaxTasks} {j : Fin kMaxProcesses} {b : Block} {x : Task} {m : Word → Word}
      (ha : a.makesProcess = false) (hclone : a.clone = 0) (hfind : s.findProcess x.pid = some j)
      (h : Enters image s a i b x m) : Attempt image s a s.nextTid (s.spawned i j x m)
  | unnumbered {j : Fin kMaxProcesses} {p : Process} (hopens : s.Opens j p)
      (hclone : s.processCount ≠ 0 → a.clone ≠ 0) (hzero : s.nextPid = 0) :
      Attempt image s a (-1) (s.opened j p)
  | givenUp {j k : Fin kMaxProcesses} {p : Process} {u : Sched} (hopens : s.Opens j p)
      (hclone : s.processCount ≠ 0 → a.clone ≠ 0) (hnext : s.nextPid ≠ 0)
      (hfind : (s.opened j p).findProcess s.nextPid = some k) (htask : ¬s.GetsTask a)
      (hu : u = s.opened j p ∨
        ∃ i, s.allocTaskSlot = some i ∧ u = (s.opened j p).setTask i .cleared) :
      Attempt image s a (-1) (u.dropProcess k)
  | made {i : Fin kMaxTasks} {j k : Fin kMaxProcesses} {p : Process} {b : Block} {x : Task}
      {m : Word → Word} (hopens : s.Opens j p) (hclone : s.processCount ≠ 0 → a.clone ≠ 0)
      (hnext : s.nextPid ≠ 0) (hfind : (s.opened j p).findProcess s.nextPid = some k)
      (hpid : x.pid = s.nextPid) (h : Enters image s a i b x m) :
      Attempt image s a s.nextPid ((s.opened j p).spawned i k x m)
  -- The number of the task is taken for a failure.
  | miscounted {s' : Sched} {i : Fin kMaxTasks} {j k : Fin kMaxProcesses} {p : Process} {b : Block}
      {x : Task} {m : Word → Word} (hopens : s.Opens j p) (htid : s.nextTid.slt 0 = true)
      (h : Enters image s a i b x m)
      (hs' : s' = (s.opened j p).spawned i k x m ∨
        ∃ l, s' = ((s.opened j p).spawned i k x m).dropProcess l) : Attempt image s a (-1) s'

section Attempts

variable {image : Image} {s : Sched} {a : Action}

theorem Enters.getsTask {i : Fin kMaxTasks} {b : Block} {x : Task} {m : Word → Word}
    (h : Enters image s a i b x m) : s.GetsTask a :=
  ⟨h.entry, by simp [h.stack], by simp [h.slot]⟩

theorem stackBytes_ge (stackSize : Word) : 4096 ≤ (stackBytes stackSize).toNat := by
  unfold stackBytes
  split_ifs <;> bv_omega

theorem createKernelTask_attempt (image : Image) (s : Sched) (entry stackSize stack : Word) :
    Attempt image s (.createKernelTask entry stackSize stack)
      (createKernelTask image s entry stackSize stack).1 (createKernelTask image s entry stackSize stack).2 := by
  rw [createKernelTask]
  obtain ⟨u, h, hu, -⟩ | ⟨i, j, x, m, hi, hj, -, hstack, rfl, rfl, h⟩ :=
    createTaskForProcess_cases image s 1 entry stackSize stack
  · rw [h]
    refine .refused (.inr rfl) ?_
    obtain rfl | ⟨i, hi, rfl⟩ := hu
    · exact .refl u
    · exact .clear (allocTaskSlot_dead hi) (.refl _)
  · rw [h]
    exact .kernel rfl rfl hj ⟨hi, trivial, if_neg hstack, stackBytes_ge stackSize, .kernel rfl rfl, rfl, rfl, rfl⟩

theorem createProcessTask_attempt (image : Image) (s : Sched) (name : Option Str)
    (entry stackSize clone stack : Word) :
    Attempt image s (.createProcessTask name entry stackSize clone stack)
      (createProcessTask image s name entry stackSize clone stack).1
      (createProcessTask image s name entry stackSize clone stack).2 := by
  unfold createProcessTask
  obtain ⟨s', h, hs', hroom⟩ | ⟨j, p, h, hopens, hclone⟩ :=
    createProcess_cases image s name s.currentProcessId clone
  · rw [h]
    exact .refused hroom hs'
  by_cases hnext : s.nextPid = 0
  · simp only [h, hnext, if_true]
    exact .unnumbered hopens hclone hnext
  obtain ⟨k, hfind⟩ := hopens.findProcess
  obtain ⟨u, htask, hu, hfails⟩ | ⟨i, l, x, m, hi, hl, hentry, hstack, hx, hm, htask⟩ :=
    createTaskForProcess_cases image (s.opened j p) s.nextPid entry stackSize stack
  · have hfind' : u.findProcess s.nextPid = some k := by
      rcases hu with rfl | ⟨i, _, rfl⟩ <;> exact hfind
    simp only [h, hnext, if_false, htask, show (-1 : Word).slt 0 = true from rfl, if_true, hfind']
    refine .givenUp hopens hclone hnext hfind ?_ hu
    rintro ⟨hentry, hstack, hslot⟩
    rcases hfails with hnone | hzero | hzero | hnone
    · cases hnone.symm.trans hfind
    · exact hentry hzero
    · exact hstack (if_pos hzero)
    · exact hslot hnone
  · have hnew : Enters image s (.createProcessTask name entry stackSize clone stack) i
        ⟨stack.toNat, (stackBytes stackSize).toNat⟩ x m := by
      subst hx hm
      exact ⟨hi, hentry, if_neg hstack, stackBytes_ge stackSize, .kernel rfl rfl, rfl, rfl, rfl⟩
    by_cases htid : s.nextTid.slt 0 = true
    · have htid' : (s.opened j p).nextTid.slt 0 = true := htid
      simp only [h, hnext, if_false, htask, htid', if_true]
      split
      · exact .miscounted hopens htid hnew (.inl rfl)
      · exact .miscounted hopens htid hnew (.inr ⟨_, rfl⟩)
    · have htid' : ¬(s.opened j p).nextTid.slt 0 = true := htid
      simp only [h, hnext, if_false, htask, htid']
      exact .made hopens hclone hnext hl (by rw [hx]) hnew

theorem createRing3Task_attempt (image : Image) (s : Sched) (name : Option Str)
    (entryPoint userEsp0 clone stack : Word) :
    Attempt image s (.createRing3Task name entryPoint userEsp0 clone stack)
      (createRing3Task image s name entryPoint userEsp0 clone stack).1
      (createRing3Task image s name entryPoint userEsp0 clone stack).2 := by
  unfold createRing3Task
  obtain ⟨s', h, hs', hroom⟩ | ⟨j, p, h, hopens, hclone⟩ :=
    createProcess_cases image s name s.currentProcessId clone
  · rw [h]
    exact .refused hroom hs'
  by_cases hnext : s.nextPid = 0
  · simp only [h, hnext, if_true]
    exact .unnumbered hopens hclone hnext
  obtain ⟨k, hfind⟩ := hopens.findProcess
  have hslots : (s.opened j p).allocTaskSlot = s.allocTaskSlot := rfl
  simp only [h, hnext, if_false, hfind, hslots]
  cases hi : s.allocTaskSlot with
  | none => exact .givenUp hopens hclone hnext hfind (fun hgets => hgets.2.2 hi) (.inl rfl)
  | some i =>
    dsimp only
    by_cases hstack : stack = 0
    · rw [if_pos hstack]
      exact .givenUp hopens hclone hnext hfind (fun hgets => hgets.2.1 (if_pos hstack)) (.inr ⟨i, hi, rfl⟩)
    · have htop : stack + 4096 = BitVec.ofNat 32 (Block.stop ⟨stack.toNat, 4096⟩) := by
        rw [Block.stop]
        bv_omega
      rw [if_neg hstack]
      exact .made hopens hclone hnext hfind rfl
        ⟨hi, trivial, if_neg hstack, le_refl _, .user rfl htop htop, rfl, rfl, rfl⟩

theorem attempt (image : Image) (s : Sched) (ha : a.isCreation = true) :
    Attempt image s a (s.outcome image a) (s.act image a) := by
  cases a with
  | createKernelTask => exact createKernelTask_attempt ..
  | createProcessTask => exact createProcessTask_attempt ..
  | createRing3Task => exact createRing3Task_attempt ..
  | _ => cases ha

theorem creation_cases (image : Image) (hs : s.Numbered) (ha : a.isCreation = true) :
    Unspoiled s (s.act image a) ∨
    ∃ u i j t m b, Host s j u ∧ u.findProcess t.pid = some j ∧ s.allocTaskSlot = some i ∧
      a.stack = some b ∧ 4096 ≤ b.size ∧ NewTask image s b t m ∧ t.state = .runnable ∧
      t.tid = s.nextTid ∧ t.userStarted = false ∧ s.act image a = u.spawned i j t m := by
  have hattempt := attempt image s ha
  generalize s.outcome image a = r, s.act image a = s' at hattempt
  cases hattempt with
  | refused _ h => exact .inl h
  | kernel _ _ hfind h =>
    exact .inr ⟨s, _, _, _, _, _, .existing, hfind, h.slot, h.stack, h.size, h.new, h.runnable, h.tid,
      h.notStarted, rfl⟩
  | unnumbered _ _ hzero => exact absurd hzero hs.pid_pos
  | givenUp hopens _ _ hfind _ hu =>
    obtain rfl := Option.some.inj (hfind.symm.trans (hs.findProcess hopens.used hopens.pid))
    obtain rfl | ⟨i, hi, rfl⟩ := hu
    · exact .inl (.drop hopens.free hs.count)
    · exact .inl (Unspoiled.clear (allocTaskSlot_dead hi) (.drop hopens.free hs.count))
  | made hopens _ _ hfind hpid h =>
    obtain rfl := Option.some.inj (hfind.symm.trans (hs.findProcess hopens.used hopens.pid))
    rw [← hpid] at hfind
    exact .inr ⟨_, _, _, _, _, _, .entered _ hopens.free hopens.used hopens.pid hopens.live hopens.space, hfind,
      h.slot, h.stack, h.size, h.new, h.runnable, h.tid, h.notStarted, rfl⟩
  | miscounted _ htid _ _ =>
    rw [hs.tid_pos] at htid
    cases htid

end Attempts

end Sched

-- A run so far: the blocks that the heap has given for stacks and that nobody gives back, which of
-- them belongs to which slot, the stack pointer at the last tick of each task, the tasks that
-- have been current, and how many creations were asked for.
structure Trace where
  sched : Sched
  blocks : List Block
  stackOf : Fin kMaxTasks → Block
  lastEsp : Fin kMaxTasks → Option Word
  ran : Fin kMaxTasks → Bool
  creations : Nat

namespace Trace

def kHeapStart : Nat := 0xD0000000

def kHeapLimit : Nat := 0xD1000000

-- What the heap may return for a stack: a part of the heap that is not in use.
def Grants (blocks : List Block) (b : Block) : Prop :=
  kHeapStart ≤ b.start ∧ b.stop ≤ kHeapLimit ∧ ∀ c ∈ blocks, b.Apart c

-- Calls come from the running task until it has exited, ticks come at any time.
structure Permits (t : Trace) (a : Action) : Prop where
  running : a.isTimer = false → (t.sched.tasks t.sched.currentTask).state ≠ .exited
  grants : ∀ b, a.stack = some b → Grants t.blocks b

def act (image : Image) (t : Trace) (a : Action) : Trace :=
  let sched := t.sched.act image a
  let created := t.sched.created image a
  { sched := sched
    blocks := if created.isSome then a.stack.toList ++ t.blocks else t.blocks
    stackOf := fun i => if created = some i then a.stack.getD ⟨0, 0⟩ else t.stackOf i
    lastEsp := fun i =>
      if created = some i then none
      else if i = t.sched.currentTask then a.tickEsp.or (t.lastEsp i)
      else t.lastEsp i
    ran := fun i => if created = some i then false else t.ran i || i = sched.currentTask
    creations := t.creations + if a.isCreation then 1 else 0 }

-- The boot code calls `init` in the address space of the kernel.
def boot (image : Image) (s : Sched) (kernelStackEsp : Word) : Trace :=
  { sched := { s with activeSpace := image.kernelPageDirectory }.init image kernelStackEsp
    blocks := []
    stackOf := fun _ => ⟨0, 0⟩
    lastEsp := fun _ => none
    ran := fun i => i = 0
    creations := 0 }

inductive Run (image : Image) (allowed : Trace → Action → Prop) : Trace → Prop
  | boot (s : Sched) (kernelStackEsp : Word) : Run image allowed (boot image s kernelStackEsp)
  | act {t : Trace} {a : Action} (ht : Run image allowed t) (hpermits : t.Permits a)
      (hallowed : allowed t a) : Run image allowed (t.act image a)

end Trace

end Wirth.Kernel.Scheduler

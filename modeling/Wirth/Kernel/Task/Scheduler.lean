import Wirth.Lib.Slots
import Wirth.Lib.Text
import Wirth.Lib.X86.Cpu

namespace Wirth.Kernel.Scheduler

open Wirth.Lib Wirth.Lib.X86

abbrev kMaxTasks : Nat := 16

abbrev kMaxProcesses : Nat := 8

instance : NeZero kMaxTasks := ⟨by decide⟩

instance : NeZero kMaxProcesses := ⟨by decide⟩

def kKernelCodeSelector : Word := 0x08

def kEflagsInterruptEnabled : Word := 0x202

def kQuantumTicks : Word := 10

def kNoWakeTick : Word := 0xFFFFFFFF

inductive TaskState where
  | unused
  | runnable
  | sleeping
  | exited
  deriving DecidableEq

structure Task where
  state : TaskState
  tid : Word
  pid : Word
  savedEsp : Word
  entry : Word
  wakeTick : Word
  ring : Word
  userEntry : Word
  userEsp0 : Word
  kernelStackTop : Word
  userStarted : Bool
  deriving DecidableEq

structure Process where
  used : Bool
  pid : Word
  parentPid : Word
  uid : Word
  gid : Word
  home : Str
  name : Str
  liveThreads : Word
  addressSpace : Word
  deriving DecidableEq

structure Image where
  kernelPageDirectory : Word
  taskEntryTrampoline : Word
  directory_pos : kernelPageDirectory ≠ 0

-- The tables of the scheduler, with what it changes elsewhere: the page directory in use, the
-- stack in the task state segment, and memory.
structure Sched where
  tasks : Fin kMaxTasks → Task
  processes : Fin kMaxProcesses → Process
  currentTask : Fin kMaxTasks
  nextPid : Word
  nextTid : Word
  processCount : Word
  threadCount : Word
  activeSpace : Word
  kernelStack : Word
  memory : Word → Word

def copyText (src : Str) (maxSize : Nat) : Str := src.take (maxSize - 1)

def Task.cleared : Task := ⟨.unused, 0, 0, 0, 0, kNoWakeTick, 0, 0, 0, 0, false⟩

def Process.cleared : Process := ⟨false, 0, 0, 0, 0, [], [], 0, 0⟩

def setupInitialTaskStackWords (image : Image) : List Word :=
  [kEflagsInterruptEnabled, kKernelCodeSelector, image.taskEntryTrampoline,
    0, 0, 0, 0, 0, 0, 0, 0]

def ring3IretWords (ring3Entry ring3Esp : Word) : List Word :=
  [0, 0, 0, 0, 0, 0, 0, 0, 0x23, ring3Esp, 0x202, 0x1B, ring3Entry]

namespace Sched

def setTask (s : Sched) (i : Fin kMaxTasks) (t : Task) : Sched :=
  { s with tasks := Function.update s.tasks i t }

def setProcess (s : Sched) (i : Fin kMaxProcesses) (p : Process) : Sched :=
  { s with processes := Function.update s.processes i p }

@[simp] theorem setTask_self (s : Sched) (i : Fin kMaxTasks) (t : Task) : (s.setTask i t).tasks i = t :=
  Function.update_self ..

theorem setTask_of_ne (s : Sched) {i k : Fin kMaxTasks} (t : Task) (h : k ≠ i) :
    (s.setTask i t).tasks k = s.tasks k :=
  Function.update_of_ne h ..

@[simp] theorem setProcess_self (s : Sched) (j : Fin kMaxProcesses) (p : Process) :
    (s.setProcess j p).processes j = p :=
  Function.update_self ..

theorem setProcess_of_ne (s : Sched) {j k : Fin kMaxProcesses} (p : Process) (h : k ≠ j) :
    (s.setProcess j p).processes k = s.processes k :=
  Function.update_of_ne h ..

def findProcess (s : Sched) (pid : Word) : Option (Fin kMaxProcesses) :=
  firstSlot (fun p => p.used && p.pid = pid) s.processes

-- The user, group and home of the new process are those of its parent.
def inherit (s : Sched) (p : Process) (parentPid : Word) : Process :=
  if s.processCount = 0 ∧ parentPid = 0 then
    { p with uid := 0, gid := 0, home := copyText (lit "/root") 32 }
  else match s.findProcess parentPid with
    | none => { p with uid := 0, gid := 0, home := copyText (lit "/root") 32 }
    | some j =>
        let parent := s.processes j
        { p with
          uid := parent.uid
          gid := parent.gid
          home := copyText (if parent.home = [] then lit "/root" else parent.home) 32 }

def entered (s : Sched) (i : Fin kMaxProcesses) (parentPid : Word) : Sched :=
  { s.setProcess i { s.processes i with
      used := true, pid := s.nextPid, parentPid := parentPid, liveThreads := 0 } with
    nextPid := s.nextPid + 1 }

def filledIn (s : Sched) (i : Fin kMaxProcesses) (name : Option Str) (parentPid addressSpace : Word) :
    Process :=
  { s.inherit (s.processes i) parentPid with
    addressSpace := addressSpace
    name := copyText (name.getD (lit "process")) 24 }

-- `clone` is the page directory that the heap has room for, or null.
def createProcess (image : Image) (s : Sched) (name : Option Str) (parentPid clone : Word) :
    Word × Sched :=
  match firstSlot (fun p => !p.used) s.processes with
  | none => (0, s)
  | some i =>
      let pid := s.nextPid
      let s := s.entered i parentPid
      let addressSpace :=
        if s.processCount = 0 ∧ parentPid = 0 then image.kernelPageDirectory else clone
      if addressSpace = 0 then (0, s.setProcess i .cleared)
      else (pid, { s.setProcess i (s.filledIn i name parentPid addressSpace) with
        processCount := s.processCount + 1 })

def allocTaskSlot (s : Sched) : Option (Fin kMaxTasks) :=
  firstSlot (fun t => t.state = .unused || t.state = .exited) s.tasks

def countThread (s : Sched) (j : Fin kMaxProcesses) : Sched :=
  { s.setProcess j { s.processes j with liveThreads := (s.processes j).liveThreads + 1 } with
    threadCount := s.threadCount + 1 }

def stackBytes (stackSize : Word) : Word := if stackSize < 4096 then 4096 else stackSize

def createTaskForProcess (image : Image) (s : Sched) (pid entry stackSize stack : Word) :
    Word × Sched :=
  if entry = 0 then (-1, s)
  else match s.findProcess pid with
    | none => (-1, s)
    | some j =>
        match s.allocTaskSlot with
        | none => (-1, s)
        | some i =>
            if stack = 0 then (-1, s.setTask i .cleared)
            else
              let frame := pushWords s.memory (stack + stackBytes stackSize)
                (setupInitialTaskStackWords image)
              let task := { Task.cleared with
                state := .runnable
                tid := s.nextTid
                pid := pid
                entry := entry
                savedEsp := frame.2 }
              let s : Sched := { s.setTask i task with nextTid := s.nextTid + 1, memory := frame.1 }
              (task.tid, s.countThread j)

def wakeSleepingTasks (s : Sched) (nowTick : Word) : Sched :=
  { s with tasks := fun i =>
      if (s.tasks i).state = .sleeping ∧ (s.tasks i).wakeTick ≤ nowTick then
        { s.tasks i with state := .runnable, wakeTick := kNoWakeTick }
      else s.tasks i }

def pickNextRunnable (s : Sched) (currentIndex : Fin kMaxTasks) : Fin kMaxTasks :=
  let candidates := (List.finRange kMaxTasks).map fun k => currentIndex + (k + 1)
  (candidates.find? fun i => (s.tasks i).state = .runnable).getD currentIndex

def currentTaskPtr (s : Sched) : Option (Fin kMaxTasks) :=
  if (s.tasks s.currentTask).state = .unused then none else some s.currentTask

def markCurrentExited (s : Sched) : Sched :=
  match s.currentTaskPtr with
  | none => s
  | some i =>
      let task := s.tasks i
      if task.state = .exited then s
      else
        let s : Sched := match s.findProcess task.pid with
          | none => s
          | some j =>
              if 0 < (s.processes j).liveThreads then
                s.setProcess j { s.processes j with liveThreads := (s.processes j).liveThreads - 1 }
              else s
        let s : Sched := if 0 < s.threadCount then { s with threadCount := s.threadCount - 1 } else s
        s.setTask i { task with state := .exited, wakeTick := kNoWakeTick }

def currentProcessId (s : Sched) : Word :=
  match s.currentTaskPtr with
  | none => 0
  | some i => (s.tasks i).pid

def currentThreadId (s : Sched) : Word :=
  match s.currentTaskPtr with
  | none => 0
  | some i => (s.tasks i).tid

def currentProcess (s : Sched) : Option Process :=
  match s.currentTaskPtr with
  | none => none
  | some i => (s.findProcess (s.tasks i).pid).map s.processes

def currentUserId (s : Sched) : Word :=
  match s.currentProcess with
  | none => 0
  | some p => p.uid

def currentGroupId (s : Sched) : Word :=
  match s.currentProcess with
  | none => 0
  | some p => p.gid

def currentRingLevel (s : Sched) : Word :=
  match s.currentTaskPtr with
  | none => 0
  | some i => (s.tasks i).ring

def init (image : Image) (s : Sched) (kernelStackEsp : Word) : Sched :=
  let s : Sched := { s with
    tasks := fun _ => .cleared
    processes := fun _ => .cleared
    currentTask := 0
    nextPid := 1
    nextTid := 1
    processCount := 0
    threadCount := 0 }
  let (kernelPid, s) := createProcess image s (some (lit "kernel")) 0 0
  if kernelPid = 0 then s
  else
    let task := { s.tasks 0 with
      state := .runnable
      tid := s.nextTid
      pid := kernelPid
      savedEsp := kernelStackEsp
      entry := 0
      wakeTick := kNoWakeTick }
    let s : Sched := { s.setTask 0 task with nextTid := s.nextTid + 1 }
    let s : Sched := match s.findProcess kernelPid with
      | none => s
      | some j => s.setProcess j { s.processes j with liveThreads := 1 }
    { s with threadCount := 1 }

def createKernelTask (image : Image) (s : Sched) (entry stackSize stack : Word) : Word × Sched :=
  createTaskForProcess image s 1 entry stackSize stack

def dropProcess (s : Sched) (j : Fin kMaxProcesses) : Sched :=
  let s := s.setProcess j .cleared
  if 0 < s.processCount then { s with processCount := s.processCount - 1 } else s

def createProcessTask (image : Image) (s : Sched) (processName : Option Str)
    (entry stackSize clone stack : Word) : Word × Sched :=
  let (pid, s) := createProcess image s processName s.currentProcessId clone
  if pid = 0 then (-1, s)
  else
    let (tid, s) := createTaskForProcess image s pid entry stackSize stack
    if tid.slt 0 then
      match s.findProcess pid with
      | none => (-1, s)
      | some j => (-1, s.dropProcess j)
    else (pid, s)

def createRing3Task (image : Image) (s : Sched) (processName : Option Str)
    (entryPoint userEsp0 clone stack : Word) : Word × Sched :=
  let (pid, s) := createProcess image s processName s.currentProcessId clone
  if pid = 0 then (-1, s)
  else match s.findProcess pid with
    | none => (-1, s)
    | some j =>
        match s.allocTaskSlot with
        | none => (-1, s.dropProcess j)
        | some i =>
            if stack = 0 then (-1, (s.setTask i .cleared).dropProcess j)
            else
              let sp := stack + 4096
              let task := { Task.cleared with
                state := .runnable
                tid := s.nextTid
                pid := pid
                ring := 3
                userEntry := entryPoint
                userEsp0 := userEsp0
                savedEsp := sp
                kernelStackTop := sp }
              let s : Sched := { s.setTask i task with nextTid := s.nextTid + 1 }
              (pid, s.countThread j)

-- `virtToPhys` is the translation of the page tables at this moment.
def switchAddressSpace (s : Sched) (virtToPhys : Word → Word) (addressSpace : Word) : Sched :=
  if addressSpace = 0 then s
  else if virtToPhys addressSpace = 0 then s
  else { s with activeSpace := addressSpace }

def enterProcess (s : Sched) (virtToPhys : Word → Word) (prev : Fin kMaxTasks) : Sched :=
  if (s.tasks prev).pid ≠ (s.tasks s.currentTask).pid then
    match s.findProcess (s.tasks s.currentTask).pid with
    | none => s
    | some j => s.switchAddressSpace virtToPhys (s.processes j).addressSpace
  else s

-- The stack pointer that the next task goes on with. A task in ring 3 comes back to the kernel on
-- a stack of its own, and starts from a frame that is built here.
def dispatch (s : Sched) (currentEsp : Word) (prev : Fin kMaxTasks) : Word × Sched :=
  let next := s.tasks s.currentTask
  if next.savedEsp = 0 then (currentEsp, s)
  else
    let kernelStack :=
      if next.ring = 3 ∧ next.kernelStackTop ≠ 0 then next.kernelStackTop else s.kernelStack
    if next.ring = 3 ∧ next.userStarted = false then
      let frame := pushWords s.memory next.savedEsp (ring3IretWords next.userEntry next.userEsp0)
      (frame.2, { s.setTask s.currentTask { next with userStarted := true } with
        kernelStack := kernelStack
        memory := frame.1 })
    else
      (next.savedEsp, { s with
        kernelStack := if next.ring ≠ 3 ∧ prev ≠ s.currentTask then next.savedEsp else kernelStack })

def onTimerInterrupt (s : Sched) (virtToPhys : Word → Word) (currentEsp tickCount : Word) :
    Word × Sched :=
  match s.currentTaskPtr with
  | none => (currentEsp, s)
  | some i =>
      let s := (s.setTask i { s.tasks i with savedEsp := currentEsp }).wakeSleepingTasks tickCount
      if tickCount % kQuantumTicks ≠ 0 then (currentEsp, s)
      else
        let prev := s.currentTask
        let s : Sched := { s with currentTask := s.pickNextRunnable s.currentTask }
        (s.enterProcess virtToPhys prev).dispatch currentEsp prev

def exitCurrent (s : Sched) : Sched := s.markCurrentExited

def sleepCurrent (s : Sched) (ticks nowTick : Word) : Sched :=
  if ticks = 0 then s
  else match s.currentTaskPtr with
    | none => s
    | some i => s.setTask i { s.tasks i with state := .sleeping, wakeTick := nowTick + ticks }

def isCurrentSleeping (s : Sched) (nowTick : Word) : Bool :=
  match s.currentTaskPtr with
  | none => false
  | some i => (s.tasks i).state = .sleeping && nowTick < (s.tasks i).wakeTick

end Sched

end Wirth.Kernel.Scheduler

import Wirth.Kernel.Task.Ledger

namespace Wirth.Kernel.Scheduler

open Wirth.Lib Wirth.Lib.X86

def Task.live (t : Task) : Bool := t.state = .runnable || t.state = .sleeping

theorem Task.live_of_ne {t : Task} (hunused : t.state ≠ .unused) (hexited : t.state ≠ .exited) :
    t.live = true := by
  cases hs : t.state <;> simp_all [live]

def Task.thread (t : Task) : Option Thread := if t.live then some ⟨t.tid, t.pid⟩ else none

def Process.account (p : Process) : Option Account :=
  if p.used then some ⟨p.pid, p.liveThreads⟩ else none

namespace Sched

def ledger (s : Sched) : Ledger :=
  { threads := fun i => (s.tasks i).thread
    accounts := fun j => (s.processes j).account
    threadCount := s.threadCount
    processCount := s.processCount }

-- The two ways in which a creation goes on: a process is entered, a task is entered.

def opened (s : Sched) (j : Fin kMaxProcesses) (p : Process) : Sched :=
  { s.setProcess j p with nextPid := s.nextPid + 1, processCount := s.processCount + 1 }

def spawned (s : Sched) (i : Fin kMaxTasks) (j : Fin kMaxProcesses) (t : Task)
    (memory : Word → Word) : Sched :=
  Sched.countThread { s.setTask i t with nextTid := s.nextTid + 1, memory := memory } j

-- A creation that fails may have used up a number and slots that were free anyway.
structure Unspoiled (s s' : Sched) : Prop where
  tasks : ∀ i, (s.tasks i).live = true → s'.tasks i = s.tasks i
  dead : ∀ i, (s.tasks i).live = false → (s'.tasks i).live = false
  processes : ∀ j, (s.processes j).used = true → s'.processes j = s.processes j
  free : ∀ j, (s.processes j).used = false → (s'.processes j).used = false
  currentTask : s'.currentTask = s.currentTask
  nextPid : s'.nextPid = s.nextPid ∨ s'.nextPid = s.nextPid + 1
  nextTid : s'.nextTid = s.nextTid
  processCount : s'.processCount = s.processCount
  threadCount : s'.threadCount = s.threadCount
  activeSpace : s'.activeSpace = s.activeSpace
  memory : s'.memory = s.memory

section Creations

variable {image : Image} {s : Sched}

theorem Unspoiled.refl (s : Sched) : Unspoiled s s :=
  ⟨fun _ _ => rfl, fun _ h => h, fun _ _ => rfl, fun _ h => h, rfl, .inl rfl, rfl, rfl, rfl, rfl, rfl⟩

variable {s' : Sched} {j : Fin kMaxProcesses} {i : Fin kMaxTasks} {p : Process}

theorem Unspoiled.ledger_eq (h : Unspoiled s s') : s'.ledger = s.ledger := by
  have hthreads : (fun i => (s'.tasks i).thread) = fun i => (s.tasks i).thread := by
    funext i
    cases hi : (s.tasks i).live with
    | true => rw [h.tasks i hi]
    | false => simp [Task.thread, hi, h.dead i hi]
  have haccounts : (fun j => (s'.processes j).account) = fun j => (s.processes j).account := by
    funext j
    cases hj : (s.processes j).used with
    | true => rw [h.processes j hj]
    | false => simp [Process.account, hj, h.free j hj]
  rw [ledger, ledger, hthreads, haccounts, h.threadCount, h.processCount]

theorem allocTaskSlot_dead (h : s.allocTaskSlot = some i) :
    (s.tasks i).live = false := by
  have hstate := firstSlot_eq_some h
  grind [Task.live]

theorem inherit_eq (s : Sched) (p : Process) (parentPid : Word) :
    ∃ uid gid home, s.inherit p parentPid = { p with uid := uid, gid := gid, home := home } := by
  unfold inherit
  split_ifs
  · exact ⟨_, _, _, rfl⟩
  · cases s.findProcess parentPid with
    | none => exact ⟨_, _, _, rfl⟩
    | some j => exact ⟨_, _, _, rfl⟩

theorem filledIn_fields (s : Sched) (j : Fin kMaxProcesses) (name : Option Str)
    (parentPid space : Word) :
    ((s.entered j parentPid).filledIn j name parentPid space).used = true ∧
    ((s.entered j parentPid).filledIn j name parentPid space).pid = s.nextPid ∧
    ((s.entered j parentPid).filledIn j name parentPid space).liveThreads = 0 := by
  obtain ⟨uid, gid, home, h⟩ :=
    inherit_eq (s.entered j parentPid) ((s.entered j parentPid).processes j) parentPid
  have hself : (s.entered j parentPid).processes j = { s.processes j with
      used := true, pid := s.nextPid, parentPid := parentPid, liveThreads := 0 } :=
    Function.update_self ..
  grind [filledIn]

theorem createTaskForProcess_cases (image : Image) (s : Sched) (pid entry stackSize stack : Word) :
    (∃ u, createTaskForProcess image s pid entry stackSize stack = (-1, u) ∧
      (u = s ∨ ∃ i, s.allocTaskSlot = some i ∧ u = s.setTask i .cleared) ∧
      (s.findProcess pid = none ∨ entry = 0 ∨ stack = 0 ∨ s.allocTaskSlot = none)) ∨
    (∃ i j t m, s.allocTaskSlot = some i ∧ s.findProcess pid = some j ∧ entry ≠ 0 ∧ stack ≠ 0 ∧
      t = { Task.cleared with
        state := .runnable, tid := s.nextTid, pid := pid, entry := entry
        savedEsp := stack + stackBytes stackSize - 44 } ∧
      m = (pushWords s.memory (stack + stackBytes stackSize) (setupInitialTaskStackWords image)).1 ∧
      createTaskForProcess image s pid entry stackSize stack = (s.nextTid, s.spawned i j t m)) := by
  unfold createTaskForProcess
  by_cases hentry : entry = 0
  · exact .inl ⟨s, if_pos hentry, .inl rfl, .inr (.inl hentry)⟩
  rw [if_neg hentry]
  cases hprocess : s.findProcess pid with
  | none => exact .inl ⟨s, rfl, .inl rfl, .inl rfl⟩
  | some j =>
    cases hslot : s.allocTaskSlot with
    | none => exact .inl ⟨s, rfl, .inl rfl, .inr (.inr (.inr rfl))⟩
    | some i =>
      dsimp only
      by_cases hstack : stack = 0
      · exact .inl ⟨_, if_pos hstack, .inr ⟨i, rfl, rfl⟩, .inr (.inr (.inl hstack))⟩
      · refine .inr ⟨i, j, _, _, rfl, rfl, hentry, hstack, rfl, rfl, ?_⟩
        rw [if_neg hstack, pushWords_snd]
        rfl

structure Numbered (s : Sched) : Prop where
  pid_pos : s.nextPid ≠ 0
  pid_fresh : ∀ j, (s.processes j).used = true → (s.processes j).pid ≠ s.nextPid
  tid_pos : s.nextTid.slt 0 = false
  count : s.processCount.toNat ≤ 8

theorem findProcess_eq_some {pid : Word} {j : Fin kMaxProcesses} (h : s.findProcess pid = some j) :
    (s.processes j).used = true ∧ (s.processes j).pid = pid := by
  simpa using firstSlot_eq_some h

theorem findProcess_opened
    (hfresh : ∀ k, (s.processes k).used = true → (s.processes k).pid ≠ s.nextPid)
    (hused : p.used = true) (hpid : p.pid = s.nextPid) :
    (s.opened j p).findProcess s.nextPid = some j := by
  apply firstSlot_of_unique
  · simp [opened, setProcess, hused, hpid]
  · intro k hk
    by_contra hkj
    simp only [opened, setProcess, Function.update_of_ne hkj, Bool.and_eq_true, decide_eq_true_eq] at hk
    exact hfresh k hk.1 hk.2

theorem Numbered.findProcess (hs : s.Numbered) {j : Fin kMaxProcesses} {p : Process}
    (hused : p.used = true) (hpid : p.pid = s.nextPid) :
    (s.opened j p).findProcess s.nextPid = some j :=
  findProcess_opened hs.pid_fresh hused hpid

theorem Unspoiled.clear (hi : (s.tasks i).live = false)
    (h : Unspoiled (s.setTask i .cleared) s') : Unspoiled s s' where
  tasks := by
    intro k hk
    have hki : k ≠ i := by
      rintro rfl
      rw [hi] at hk
      cases hk
    have hsame : (s.setTask i .cleared).tasks k = s.tasks k := Function.update_of_ne hki ..
    rw [h.tasks k (by rw [hsame]; exact hk), hsame]
  dead := by
    intro k hk
    apply h.dead k
    by_cases hki : k = i
    · subst hki
      simp [setTask, Task.live, Task.cleared]
    simp [setTask, hki, hk]
  processes := h.processes
  free := h.free
  currentTask := h.currentTask
  nextPid := h.nextPid
  nextTid := h.nextTid
  processCount := h.processCount
  threadCount := h.threadCount
  activeSpace := h.activeSpace
  memory := h.memory

theorem Unspoiled.setProcess (hj : (s.processes j).used = false) :
    Unspoiled s { s.setProcess j .cleared with nextPid := s.nextPid + 1 } where
  tasks := fun _ _ => rfl
  dead := fun _ h => h
  processes := by
    intro k hk
    have hkj : k ≠ j := by
      rintro rfl
      rw [hj] at hk
      cases hk
    exact Function.update_of_ne hkj ..
  free := by
    intro k hk
    by_cases hkj : k = j
    · subst hkj
      simp [Sched.setProcess, Process.cleared]
    simp [Sched.setProcess, hkj, hk]
  currentTask := rfl
  nextPid := .inr rfl
  nextTid := rfl
  processCount := rfl
  threadCount := rfl
  activeSpace := rfl
  memory := rfl

theorem Unspoiled.drop (hj : (s.processes j).used = false)
    (hcount : s.processCount.toNat ≤ 8) : Unspoiled s ((s.opened j p).dropProcess j) := by
  have hpos : 0 < s.processCount + 1 := by bv_omega
  have hback : s.processCount + 1 - 1 = s.processCount := BitVec.add_sub_cancel ..
  have heq : (s.opened j p).dropProcess j = { s.setProcess j .cleared with nextPid := s.nextPid + 1 } := by
    simp only [opened, dropProcess, Sched.setProcess, Function.update_idem, hpos, if_true, hback]
  rw [heq]
  exact Unspoiled.setProcess hj

-- The slot and the process that `create_process` fills in.
structure Opens (s : Sched) (j : Fin kMaxProcesses) (p : Process) : Prop where
  slot : firstSlot (fun p => !p.used) s.processes = some j
  used : p.used = true
  pid : p.pid = s.nextPid
  live : p.liveThreads = 0
  space : p.addressSpace ≠ 0

theorem Opens.free (h : s.Opens j p) : (s.processes j).used = false := by
  simpa using firstSlot_eq_some h.slot

theorem Opens.findProcess (h : s.Opens j p) : ∃ k, (s.opened j p).findProcess s.nextPid = some k := by
  cases hk : (s.opened j p).findProcess s.nextPid with
  | some k => exact ⟨k, rfl⟩
  | none =>
    have hj := firstSlot_eq_none hk j
    have hself : (s.opened j p).processes j = p := Function.update_self ..
    simp [hself, h.used, h.pid] at hj

theorem createProcess_cases (image : Image) (s : Sched) (name : Option Str) (parentPid clone : Word) :
    (∃ s', createProcess image s name parentPid clone = (0, s') ∧ Unspoiled s s' ∧
      (firstSlot (fun p => !p.used) s.processes = none ∨ clone = 0)) ∨
    ∃ j p, createProcess image s name parentPid clone = (s.nextPid, s.opened j p) ∧ s.Opens j p ∧
      (s.processCount ≠ 0 → clone ≠ 0) := by
  unfold createProcess
  cases hslot : firstSlot (fun p : Process => !p.used) s.processes with
  | none => exact .inl ⟨s, rfl, .refl s, .inl rfl⟩
  | some j =>
    have hfree : (s.processes j).used = false := by simpa using firstSlot_eq_some hslot
    dsimp only
    generalize hspace : (if (s.entered j parentPid).processCount = 0 ∧ parentPid = 0
      then image.kernelPageDirectory else clone) = space
    by_cases hzero : space = 0
    · refine .inl ⟨_, ?_, .setProcess hfree, .inr ?_⟩
      · rw [if_pos hzero]
        simp only [entered, Sched.setProcess, Function.update_idem]
      · rw [hzero] at hspace
        split_ifs at hspace
        · exact absurd hspace image.directory_pos
        · exact hspace
    · obtain ⟨hused, hpid, hlive⟩ := filledIn_fields s j name parentPid space
      refine .inr ⟨j, (s.entered j parentPid).filledIn j name parentPid space, ?_,
        ⟨hslot, hused, hpid, hlive, hzero⟩, fun hcount hclone => hzero ?_⟩
      · rw [if_neg hzero]
        simp only [entered, opened, Sched.setProcess, Function.update_idem]
      · rw [← hspace, if_neg fun h => hcount h.1, hclone]

end Creations

section Ledgers

variable {s : Sched}

theorem ledger_opened {j : Fin kMaxProcesses} {p : Process} (hused : p.used = true)
    (hpid : p.pid = s.nextPid) (hlive : p.liveThreads = 0) :
    (s.opened j p).ledger = s.ledger.openAccount j s.nextPid := by
  have haccounts : (fun k => ((s.opened j p).processes k).account) =
      Function.update s.ledger.accounts j (some ⟨s.nextPid, 0⟩) := by
    funext k
    by_cases hkj : k = j
    · subst hkj
      simp [opened, setProcess, Process.account, hused, hpid, hlive]
    · simp [opened, setProcess, ledger, hkj]
  rw [ledger, Ledger.openAccount, haccounts]
  rfl

theorem ledger_spawned {i : Fin kMaxTasks} {j : Fin kMaxProcesses} {t : Task} {m : Word → Word}
    (hfind : s.findProcess t.pid = some j) (hstate : t.state = .runnable) :
    ∃ a, s.ledger.accounts j = some a ∧
      (s.spawned i j t m).ledger = s.ledger.addThread i j a t.tid := by
  obtain ⟨hused, hpid⟩ := findProcess_eq_some hfind
  refine ⟨⟨t.pid, (s.processes j).liveThreads⟩, by simp [ledger, Process.account, hused, hpid], ?_⟩
  have hthreads : (fun k => ((s.spawned i j t m).tasks k).thread) =
      Function.update s.ledger.threads i (some ⟨t.tid, t.pid⟩) := by
    funext k
    by_cases hki : k = i
    · subst hki
      simp [spawned, countThread, setTask, setProcess, Task.thread, Task.live, hstate]
    · simp [spawned, countThread, setTask, setProcess, ledger, hki]
  have haccounts : (fun k => ((s.spawned i j t m).processes k).account) =
      Function.update s.ledger.accounts j (some ⟨t.pid, (s.processes j).liveThreads + 1⟩) := by
    funext k
    by_cases hkj : k = j
    · subst hkj
      simp [spawned, countThread, setTask, setProcess, Process.account, hused, hpid]
    · simp [spawned, countThread, setTask, setProcess, ledger, hkj]
  rw [ledger, Ledger.addThread, hthreads, haccounts]
  rfl

end Ledgers

end Sched

end Wirth.Kernel.Scheduler

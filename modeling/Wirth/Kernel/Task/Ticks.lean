import Wirth.Kernel.Task.Effects

namespace Wirth.Kernel.Scheduler

open Wirth.Lib Wirth.Lib.X86

def Task.core (t : Task) : Task :=
  { t with
    state := if t.live then .runnable else t.state
    savedEsp := 0
    wakeTick := 0
    userStarted := false }

section Core

variable {t t' : Task}

theorem Task.live_core (t : Task) : t.core.live = t.live := by
  cases h : t.state <;> simp [core, live, h]

theorem Task.core_unused (t : Task) : t.core.state = .unused ↔ t.state = .unused := by
  cases h : t.state <;> simp [core, live, h]

theorem Task.live_of_core (h : t'.core = t.core) : t'.live = t.live := by
  rw [← t'.live_core, ← t.live_core, h]

theorem Task.pid_of_core (h : t'.core = t.core) : t'.pid = t.pid := by
  change t'.core.pid = t.core.pid
  rw [h]

theorem Task.user_of_core (h : t'.core = t.core) :
    t'.userEntry = t.userEntry ∧ t'.userEsp0 = t.userEsp0 ∧ t'.ring = t.ring := by
  refine ⟨?_, ?_, ?_⟩
  · change t'.core.userEntry = t.core.userEntry
    rw [h]
  · change t'.core.userEsp0 = t.core.userEsp0
    rw [h]
  · change t'.core.ring = t.core.ring
    rw [h]

theorem Task.thread_of_core (h : t'.core = t.core) : t'.thread = t.thread := by
  have htid : t'.core.tid = t.core.tid := by rw [h]
  have htid : t'.tid = t.tid := htid
  rw [thread, thread, live_of_core h, htid, pid_of_core h]

theorem Task.unused_of_core (h : t'.core = t.core) : t'.state = .unused ↔ t.state = .unused := by
  rw [← t'.core_unused, ← t.core_unused, h]

theorem Task.core_of_live {state : TaskState} {savedEsp wakeTick : Word} {userStarted : Bool}
    (h : t.live = true) (hstate : state = .runnable ∨ state = .sleeping) :
    Task.core { t with
      state := state, savedEsp := savedEsp, wakeTick := wakeTick, userStarted := userStarted } =
      t.core := by
  have hold : t.state = .runnable ∨ t.state = .sleeping := by simpa [live] using h
  rcases hstate with rfl | rfl <;> rcases hold with hold | hold <;> simp [core, live, hold]

end Core

namespace Sched

structure Steady (s s' : Sched) : Prop where
  tasks : ∀ i, (s'.tasks i).core = (s.tasks i).core
  processes : s'.processes = s.processes
  nextPid : s'.nextPid = s.nextPid
  nextTid : s'.nextTid = s.nextTid
  processCount : s'.processCount = s.processCount
  threadCount : s'.threadCount = s.threadCount

section Steady

variable {s s' s'' : Sched}

theorem Steady.refl (s : Sched) : Steady s s := ⟨fun _ => rfl, rfl, rfl, rfl, rfl, rfl⟩

theorem Steady.trans (h : Steady s s') (h' : Steady s' s'') : Steady s s'' where
  tasks := fun i => (h'.tasks i).trans (h.tasks i)
  processes := h'.processes.trans h.processes
  nextPid := h'.nextPid.trans h.nextPid
  nextTid := h'.nextTid.trans h.nextTid
  processCount := h'.processCount.trans h.processCount
  threadCount := h'.threadCount.trans h.threadCount

theorem Steady.ledger_eq (h : Steady s s') : s'.ledger = s.ledger := by
  have hthreads : (fun i => (s'.tasks i).thread) = fun i => (s.tasks i).thread :=
    funext fun i => Task.thread_of_core (h.tasks i)
  rw [ledger, ledger, hthreads, h.processes, h.processCount, h.threadCount]

theorem steady_setTask {i : Fin kMaxTasks} {t : Task} (h : t.core = (s.tasks i).core) :
    Steady s (s.setTask i t) := by
  refine ⟨?_, rfl, rfl, rfl, rfl, rfl⟩
  intro k
  by_cases hki : k = i
  · rw [hki, setTask_self, h]
  · rw [setTask_of_ne s t hki]

theorem steady_sleepCurrent (ticks nowTick : Word)
    (h : (s.tasks s.currentTask).live = true) : Steady s (s.sleepCurrent ticks nowTick) := by
  unfold sleepCurrent currentTaskPtr
  split_ifs
  · exact .refl s
  · exact .refl s
  · exact steady_setTask (Task.core_of_live h (.inr rfl))

theorem sleepCurrent_currentTask (s : Sched) (ticks nowTick : Word) :
    (s.sleepCurrent ticks nowTick).currentTask = s.currentTask := by
  unfold sleepCurrent currentTaskPtr
  split_ifs <;> rfl

theorem steady_wake (s : Sched) (nowTick : Word) : Steady s (s.wakeSleepingTasks nowTick) := by
  refine ⟨?_, rfl, rfl, rfl, rfl, rfl⟩
  intro i
  simp only [wakeSleepingTasks]
  split_ifs with h
  · simp [Task.core, Task.live, h.1]
  · rfl

theorem enterProcess_eq (s : Sched) (virtToPhys : Word → Word) (prev : Fin kMaxTasks) :
    ∃ space, s.enterProcess virtToPhys prev = { s with activeSpace := space } := by
  unfold enterProcess switchAddressSpace
  split_ifs
  · cases s.findProcess (s.tasks s.currentTask).pid with
    | none => exact ⟨_, rfl⟩
    | some j =>
      dsimp only
      split_ifs <;> exact ⟨_, rfl⟩
  · exact ⟨_, rfl⟩

theorem dispatch_cases (s : Sched) (currentEsp : Word) (prev : Fin kMaxTasks) :
    ((s.tasks s.currentTask).savedEsp = 0 ∧ s.dispatch currentEsp prev = (currentEsp, s)) ∨
    (∃ k, (s.tasks s.currentTask).savedEsp ≠ 0 ∧ (s.tasks s.currentTask).ring = 3 ∧
      (s.tasks s.currentTask).userStarted = false ∧
      s.dispatch currentEsp prev =
        ((s.tasks s.currentTask).savedEsp - 52,
          { s.setTask s.currentTask { s.tasks s.currentTask with userStarted := true } with
            kernelStack := k
            memory := (pushWords s.memory (s.tasks s.currentTask).savedEsp
              (ring3IretWords (s.tasks s.currentTask).userEntry
                (s.tasks s.currentTask).userEsp0)).1 })) ∨
    (∃ k, (s.tasks s.currentTask).savedEsp ≠ 0 ∧
      ((s.tasks s.currentTask).ring = 3 → (s.tasks s.currentTask).userStarted = true) ∧
      s.dispatch currentEsp prev = ((s.tasks s.currentTask).savedEsp, { s with kernelStack := k })) := by
  unfold dispatch
  by_cases hesp : (s.tasks s.currentTask).savedEsp = 0
  · exact .inl ⟨hesp, if_pos hesp⟩
  by_cases hfirst : (s.tasks s.currentTask).ring = 3 ∧ (s.tasks s.currentTask).userStarted = false
  · right
    left
    dsimp only
    rw [if_neg hesp, if_pos hfirst, pushWords_snd]
    exact ⟨_, hesp, hfirst.1, hfirst.2, rfl⟩
  · have hstarted : (s.tasks s.currentTask).ring = 3 → (s.tasks s.currentTask).userStarted = true := by
      intro hring
      cases hu : (s.tasks s.currentTask).userStarted with
      | true => rfl
      | false => exact absurd ⟨hring, hu⟩ hfirst
    right
    right
    rw [if_neg hesp, if_neg hfirst]
    exact ⟨_, hesp, hstarted, rfl⟩

theorem steady_dispatch (s : Sched) (currentEsp : Word) (prev : Fin kMaxTasks) :
    Steady s (s.dispatch currentEsp prev).2 := by
  obtain ⟨-, h⟩ | ⟨k, -, -, -, h⟩ | ⟨k, -, -, h⟩ := dispatch_cases s currentEsp prev
  · rw [h]
    exact .refl s
  · rw [h]
    have hset := steady_setTask (s := s) (i := s.currentTask)
      (t := { s.tasks s.currentTask with userStarted := true }) rfl
    exact ⟨hset.tasks, rfl, rfl, rfl, rfl, rfl⟩
  · rw [h]
    exact ⟨fun _ => rfl, rfl, rfl, rfl, rfl, rfl⟩

def ticked (s : Sched) (currentEsp tickCount : Word) : Sched :=
  (s.setTask s.currentTask { s.tasks s.currentTask with savedEsp := currentEsp }).wakeSleepingTasks
    tickCount

theorem steady_ticked (s : Sched) (currentEsp tickCount : Word) :
    Steady s (s.ticked currentEsp tickCount) :=
  (steady_setTask (t := { s.tasks s.currentTask with savedEsp := currentEsp }) rfl).trans
    (steady_wake _ tickCount)

theorem onTimerInterrupt_cases (virtToPhys : Word → Word) (currentEsp tickCount : Word)
    (h : (s.tasks s.currentTask).state ≠ .unused) :
    s.onTimerInterrupt virtToPhys currentEsp tickCount = (currentEsp, s.ticked currentEsp tickCount) ∨
    ∃ next space, next = (s.ticked currentEsp tickCount).pickNextRunnable s.currentTask ∧
      { s.ticked currentEsp tickCount with currentTask := next, activeSpace := space } =
        Sched.enterProcess { s.ticked currentEsp tickCount with currentTask := next } virtToPhys
          s.currentTask ∧
      s.onTimerInterrupt virtToPhys currentEsp tickCount =
        Sched.dispatch { s.ticked currentEsp tickCount with currentTask := next, activeSpace := space }
          currentEsp s.currentTask := by
  have hptr : s.currentTaskPtr = some s.currentTask := by
    rw [currentTaskPtr, if_neg h]
  have htask : (s.ticked currentEsp tickCount).currentTask = s.currentTask := rfl
  unfold onTimerInterrupt
  simp only [hptr]
  rw [← ticked]
  by_cases hquantum : tickCount % kQuantumTicks = 0
  · rw [if_neg (fun hne => hne hquantum), htask]
    obtain ⟨space, hspace⟩ := enterProcess_eq { s.ticked currentEsp tickCount with
      currentTask := (s.ticked currentEsp tickCount).pickNextRunnable s.currentTask } virtToPhys
      s.currentTask
    exact .inr ⟨_, space, rfl, hspace.symm, by rw [hspace]⟩
  · exact .inl (by rw [if_pos hquantum])

theorem steady_timer (s : Sched) (virtToPhys : Word → Word) (currentEsp tickCount : Word) :
    Steady s (s.onTimerInterrupt virtToPhys currentEsp tickCount).2 := by
  by_cases h : (s.tasks s.currentTask).state = .unused
  · have hptr : s.currentTaskPtr = none := by rw [currentTaskPtr, if_pos h]
    simp only [onTimerInterrupt, hptr]
    exact .refl s
  have hticked := steady_ticked s currentEsp tickCount
  obtain heq | ⟨next, space, -, -, heq⟩ := onTimerInterrupt_cases virtToPhys currentEsp tickCount h
  · rw [heq]
    exact hticked
  · rw [heq]
    have hnext : Steady (s.ticked currentEsp tickCount)
        { s.ticked currentEsp tickCount with currentTask := next, activeSpace := space } :=
      ⟨fun _ => rfl, rfl, rfl, rfl, rfl, rfl⟩
    exact (hticked.trans hnext).trans (steady_dispatch _ currentEsp s.currentTask)

theorem pickNextRunnable_spec (s : Sched) (i : Fin kMaxTasks) :
    (s.tasks (s.pickNextRunnable i)).state = .runnable ∨ s.pickNextRunnable i = i := by
  unfold pickNextRunnable
  cases h : List.find? (fun k => decide ((s.tasks k).state = .runnable))
      ((List.finRange kMaxTasks).map fun k => i + (k + 1)) with
  | none => exact .inr (by simp [h])
  | some k => exact .inl (by simpa [h] using List.find?_some h)

theorem dispatch_currentTask (s : Sched) (currentEsp : Word) (prev : Fin kMaxTasks) :
    (s.dispatch currentEsp prev).2.currentTask = s.currentTask := by
  obtain ⟨-, h⟩ | ⟨k, -, -, -, h⟩ | ⟨k, -, -, h⟩ := dispatch_cases s currentEsp prev
  all_goals exact congrArg (fun x : Word × Sched => x.2.currentTask) h

theorem timer_current (virtToPhys : Word → Word) (currentEsp tickCount : Word)
    (h : (s.tasks s.currentTask).state ≠ .unused) :
    ((s.onTimerInterrupt virtToPhys currentEsp tickCount).2.tasks
      (s.onTimerInterrupt virtToPhys currentEsp tickCount).2.currentTask).state ≠ .unused := by
  have hticked := (steady_ticked s currentEsp tickCount).tasks
  obtain heq | ⟨next, space, hnext, -, heq⟩ := onTimerInterrupt_cases virtToPhys currentEsp tickCount h
  · rw [heq]
    exact fun hunused => h ((Task.unused_of_core (hticked _)).mp hunused)
  · rw [heq, dispatch_currentTask]
    intro hunused
    have hbefore := (Task.unused_of_core ((steady_dispatch _ currentEsp s.currentTask).tasks next)).mp hunused
    rcases pickNextRunnable_spec (s.ticked currentEsp tickCount) s.currentTask with hrun | hsame
    · grind
    grind [Task.unused_of_core]

end Steady

section Exit

variable {s : Sched} {j : Fin kMaxProcesses}

theorem live_ne {t : Task} (h : t.live = true) : t.state ≠ .unused ∧ t.state ≠ .exited := by
  cases hs : t.state <;> simp_all [Task.live]

theorem exitCurrent_eq (hlive : (s.tasks s.currentTask).live = true)
    (hj : s.findProcess (s.tasks s.currentTask).pid = some j)
    (hthreads : 0 < (s.processes j).liveThreads) (hcount : 0 < s.threadCount) :
    s.exitCurrent =
      { (s.setProcess j { s.processes j with
          liveThreads := (s.processes j).liveThreads - 1 }).setTask s.currentTask
          { s.tasks s.currentTask with state := .exited, wakeTick := kNoWakeTick } with
        threadCount := s.threadCount - 1 } := by
  obtain ⟨hunused, hexited⟩ := live_ne hlive
  have hptr : s.currentTaskPtr = some s.currentTask := by rw [currentTaskPtr, if_neg hunused]
  have hcount' : 0 < (s.setProcess j { s.processes j with
      liveThreads := (s.processes j).liveThreads - 1 }).threadCount := hcount
  unfold exitCurrent markCurrentExited
  simp only [hptr, hexited, if_false, hj, hthreads, if_true, hcount']
  rfl

theorem account_eq_some {p : Process} {a : Account} (h : p.account = some a) :
    p.used = true ∧ p.pid = a.pid ∧ p.liveThreads = a.liveThreads := by
  grind [Process.account]

theorem findProcess_of_account {a : Account} (hb : s.ledger.Balanced)
    (hj : s.ledger.accounts j = some a) : s.findProcess a.pid = some j := by
  obtain ⟨hused, hpid, -⟩ := account_eq_some hj
  apply firstSlot_of_unique
  · simp [hused, hpid]
  · intro k hk
    simp only [Bool.and_eq_true, decide_eq_true_eq] at hk
    have hk' : s.ledger.accounts k = some ⟨a.pid, (s.processes k).liveThreads⟩ := by
      simp [ledger, Process.account, hk.1, hk.2]
    exact hb.pids k j _ _ hk' hj rfl

theorem exitCurrent_cases (hb : s.ledger.Balanced) (hlive : (s.tasks s.currentTask).live = true) :
    ∃ j a, s.ledger.accounts j = some a ∧ a.pid = (s.tasks s.currentTask).pid ∧
      s.exitCurrent.ledger = s.ledger.removeThread s.currentTask j a ∧
      s.exitCurrent =
        { (s.setProcess j { s.processes j with
            liveThreads := (s.processes j).liveThreads - 1 }).setTask s.currentTask
            { s.tasks s.currentTask with state := .exited, wakeTick := kNoWakeTick } with
          threadCount := s.threadCount - 1 } := by
  have hthread : s.ledger.threads s.currentTask =
      some ⟨(s.tasks s.currentTask).tid, (s.tasks s.currentTask).pid⟩ := by
    simp [ledger, Task.thread, hlive]
  obtain ⟨j, a, hj, hpid⟩ := hb.owner _ _ hthread
  obtain ⟨hused, hpid', hlives⟩ := account_eq_some hj
  have hfind := findProcess_of_account hb hj
  have hthreads : 0 < (s.processes j).liveThreads := by
    rw [hlives]
    exact hb.live_pos hthread hj hpid
  have hcount : 0 < s.threadCount := hb.threads_pos hthread
  rw [hpid] at hfind
  have heq := exitCurrent_eq hlive hfind hthreads hcount
  refine ⟨j, a, hj, hpid, ?_, heq⟩
  have hledger : ∀ u : Sched, u = { (s.setProcess j { s.processes j with
        liveThreads := (s.processes j).liveThreads - 1 }).setTask s.currentTask
        { s.tasks s.currentTask with state := .exited, wakeTick := kNoWakeTick } with
      threadCount := s.threadCount - 1 } → u.ledger = s.ledger.removeThread s.currentTask j a := by
    rintro u rfl
    rw [ledger, Ledger.removeThread]
    congr 1
    · funext k
      by_cases hk : k = s.currentTask
      · rw [hk, setTask_self, Function.update_self]
        rfl
      · rw [setTask_of_ne _ _ hk, Function.update_of_ne hk]
        rfl
    · funext k
      by_cases hk : k = j
      · simp [setTask, Process.account, hk, hused, hpid', hlives]
      simp [setTask, setProcess_of_ne, ledger, hk]
  exact hledger _ heq

end Exit

end Sched

end Wirth.Kernel.Scheduler

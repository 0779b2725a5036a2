import Wirth.Kernel.Task.Tables
import Wirth.Kernel.Task.Calls
import Wirth.Lib.RoundRobin

namespace Wirth.Kernel.Scheduler

open Wirth.Lib Wirth.Lib.X86

def Action.isQuantum : Action → Bool
  | timer _ _ tickCount => tickCount % kQuantumTicks = 0
  | _ => false

namespace Sched

variable {image : Image} {s : Sched} {a : Action} {actions : List Action} {k : Fin kMaxTasks}

def runnable (s : Sched) (k : Fin kMaxTasks) : Prop := (s.tasks k).state = .runnable

def run (image : Image) (s : Sched) (actions : List Action) : Sched := actions.foldl (act image) s

def Permits (s : Sched) (a : Action) : Prop :=
  a.isTimer = false → (s.tasks s.currentTask).state ≠ .exited

def Schedule (image : Image) : Sched → List Action → Prop
  | _, [] => True
  | s, a :: rest => s.Permits a ∧ Schedule image (s.act image a) rest

def quanta (actions : List Action) : Nat := actions.countP Action.isQuantum

-- The slots of the tasks that the quantum ticks choose, in their order.
def dispatches (image : Image) : Sched → List Action → List (Fin kMaxTasks)
  | _, [] => []
  | s, a :: rest =>
      let next := s.act image a
      if a.isQuantum then next.currentTask :: dispatches image next rest
      else dispatches image next rest

def StaysRunnable (image : Image) (k : Fin kMaxTasks) : Sched → List Action → Prop
  | _, [] => True
  | s, a :: rest => s.runnable k ∧ StaysRunnable image k (s.act image a) rest

section Lists

theorem schedule_append {rest : List Action} :
    Schedule image s (actions ++ rest) ↔
      Schedule image s actions ∧ Schedule image (s.run image actions) rest := by
  induction actions generalizing s with
  | nil => exact (and_iff_right trivial).symm
  | cons a actions ih =>
    rw [List.cons_append, Schedule, Schedule, ih, and_assoc]
    rfl

theorem staysRunnable_append {rest : List Action} :
    StaysRunnable image k s (actions ++ rest) ↔
      StaysRunnable image k s actions ∧ StaysRunnable image k (s.run image actions) rest := by
  induction actions generalizing s with
  | nil => exact (and_iff_right trivial).symm
  | cons a actions ih =>
    rw [List.cons_append, StaysRunnable, StaysRunnable, ih, and_assoc]
    rfl

end Lists

section Steps

theorem ticked_runnable {currentEsp tickCount : Word} (h : s.runnable k) :
    (s.ticked currentEsp tickCount).runnable k := by
  have hset : ((s.setTask s.currentTask
      { s.tasks s.currentTask with savedEsp := currentEsp }).tasks k).state = .runnable := by
    by_cases hk : k = s.currentTask
    · subst hk
      rw [setTask_self]
      exact h
    · rw [setTask_of_ne _ _ hk]
      exact h
  simp [runnable, ticked, wakeSleepingTasks, hset]

theorem enterProcess_currentTask (s : Sched) (virtToPhys : Word → Word) (prev : Fin kMaxTasks) :
    (s.enterProcess virtToPhys prev).currentTask = s.currentTask := by
  obtain ⟨space, hspace⟩ := enterProcess_eq s virtToPhys prev
  rw [hspace]

end Steps

section Runs

variable (h : (s.tasks s.currentTask).state ≠ .unused)

include h

theorem act_current (hpermits : s.Permits a) :
    ((s.act image a).tasks (s.act image a).currentTask).state ≠ .unused := by
  cases htimer : a.isTimer with
  | false =>
    have hcall := call image htimer (Task.live_of_ne h (hpermits htimer))
    rw [hcall.currentTask]
    exact hcall.current
  | true =>
    cases a with
    | timer virtToPhys currentEsp tickCount => exact timer_current virtToPhys currentEsp tickCount h
    | _ => cases htimer

theorem run_current (hs : Schedule image s actions) :
    ((s.run image actions).tasks (s.run image actions).currentTask).state ≠ .unused := by
  induction actions generalizing s with
  | nil => exact h
  | cons a actions ih => exact ih (act_current h hs.1) hs.2

theorem act_quantum (ha : a.isQuantum = true) :
    ∃ p : Fin kMaxTasks → Bool, (∀ k, s.runnable k → p k = true) ∧
      (s.act image a).currentTask = nextIn p s.currentTask := by
  cases a with
  | timer virtToPhys currentEsp tickCount =>
    refine ⟨fun k => ((s.ticked currentEsp tickCount).tasks k).state = .runnable,
      fun k hk => decide_eq_true (ticked_runnable hk), ?_⟩
    have hptr : s.currentTaskPtr = some s.currentTask := by rw [currentTaskPtr, if_neg h]
    have hquantum : tickCount % kQuantumTicks = 0 := of_decide_eq_true ha
    rw [act, onTimerInterrupt]
    simp only [hptr]
    rw [if_neg fun hne => hne hquantum, dispatch_currentTask, enterProcess_currentTask]
    rfl
  | _ => cases ha

theorem act_not_quantum (hpermits : s.Permits a)
    (ha : a.isQuantum = false) : (s.act image a).currentTask = s.currentTask := by
  cases htimer : a.isTimer with
  | false => exact (call image htimer (Task.live_of_ne h (hpermits htimer))).currentTask
  | true =>
    cases a with
    | timer virtToPhys currentEsp tickCount =>
      have hptr : s.currentTaskPtr = some s.currentTask := by rw [currentTaskPtr, if_neg h]
      have hquantum : tickCount % kQuantumTicks ≠ 0 := of_decide_eq_false ha
      rw [act, onTimerInterrupt]
      simp only [hptr]
      rw [if_pos hquantum]
      rfl
    | _ => cases htimer

theorem dispatched_of_ahead (hs : Schedule image s actions) (hstays : StaysRunnable image k s actions)
    (hquanta : ahead s.currentTask k < quanta actions) : k ∈ dispatches image s actions := by
  induction actions generalizing s with
  | nil => cases hquanta
  | cons a actions ih =>
    have hcurrent := @act_current image s a h hs.1
    rw [quanta, List.countP_cons] at hquanta
    rw [dispatches]
    by_cases ha : a.isQuantum = true
    · rw [if_pos ha, List.mem_cons]
      rw [if_pos ha] at hquanta
      obtain ⟨p, hp, hnext⟩ := @act_quantum image s a h ha
      rcases nextIn_turn (i := s.currentTask) (hp k hstays.1) with hreached | ⟨hnearer, _⟩
      · exact Or.inl (hnext.trans hreached).symm
      · refine Or.inr (ih hcurrent hs.2 hstays.2 ?_)
        rw [hnext, quanta]
        omega
    · rw [if_neg ha]
      rw [if_neg ha] at hquanta
      apply ih hcurrent hs.2 hstays.2
      rw [act_not_quantum h hs.1 (Bool.eq_false_iff.mpr ha)]
      exact hquanta

theorem waits_ahead {b : Fin kMaxTasks} (hs : Schedule image s actions)
    (hstays : StaysRunnable image b s actions) (hahead : ahead s.currentTask b < ahead s.currentTask k)
    (hnot : b ∉ dispatches image s actions) :
    ahead (s.run image actions).currentTask b < ahead (s.run image actions).currentTask k := by
  induction actions generalizing s with
  | nil => exact hahead
  | cons a actions ih =>
    have hcurrent := @act_current image s a h hs.1
    rw [dispatches] at hnot
    by_cases ha : a.isQuantum = true
    · rw [if_pos ha, List.mem_cons, not_or] at hnot
      obtain ⟨p, hp, hnext⟩ := @act_quantum image s a h ha
      rcases nextIn_turn (i := s.currentTask) (hp b hstays.1) with hreached | ⟨_, hbehind⟩
      · exact absurd (hnext.trans hreached).symm hnot.1
      · apply ih hcurrent hs.2 hstays.2 _ hnot.2
        rw [hnext]
        exact (hbehind k hahead).2
    · rw [if_neg ha] at hnot
      apply ih hcurrent hs.2 hstays.2 _ hnot
      rw [act_not_quantum h hs.1 (Bool.eq_false_iff.mpr ha)]
      exact hahead

-- Between two turns of a task every other task that stays runnable has one.
theorem dispatched_between {last : Action} {b : Fin kMaxTasks}
    (hs : Schedule image s (actions ++ [last])) (hlast : last.isQuantum = true) (hfirst : s.currentTask = k)
    (hagain : (s.run image (actions ++ [last])).currentTask = k) (hne : b ≠ k)
    (hstays : StaysRunnable image b s (actions ++ [last])) : b ∈ dispatches image s actions := by
  by_contra hnot
  obtain ⟨hactions, _⟩ := schedule_append.mp hs
  obtain ⟨hwaits, hrunnable, _⟩ := staysRunnable_append.mp hstays
  subst hfirst
  have hahead := waits_ahead h hactions hwaits (ahead_lt_self hne) hnot
  obtain ⟨p, hp, hnext⟩ := @act_quantum image _ last (run_current h hactions) hlast
  rw [run, List.foldl_append] at hagain
  have hturn := hnext.symm.trans hagain
  rcases nextIn_turn (i := (s.run image actions).currentTask) (hp b hrunnable) with
    hreached | ⟨_, hbehind⟩
  · exact hne (hreached.symm.trans hturn)
  · exact (hbehind _ hahead).1 hturn

end Runs

theorem init_current (image : Image) (s : Sched) (kernelStackEsp : Word) :
    ((s.init image kernelStackEsp).tasks (s.init image kernelStackEsp).currentTask).state ≠
      .unused := by
  obtain ⟨hfresh, _⟩ := init_spec image s kernelStackEsp
  have htasks : (s.init image kernelStackEsp).tasks = _ := hfresh.tasks
  have hcurrent : (s.init image kernelStackEsp).currentTask = 0 := hfresh.currentTask
  rw [htasks, hcurrent, Function.update_self]
  nofun

-- From any state that can be reached, a task that stays runnable has its turn within 16 quanta, and
-- between two turns of one task all others that stay runnable have theirs.
theorem round_robin_fair (image : Image) (boot : Sched) (kernelStackEsp : Word)
    {before actions : List Action}
    (hs : Schedule image (boot.init image kernelStackEsp) (before ++ actions)) :
    (∀ k, StaysRunnable image k ((boot.init image kernelStackEsp).run image before) actions →
      16 ≤ quanta actions →
        k ∈ dispatches image ((boot.init image kernelStackEsp).run image before) actions) ∧
    (∀ first middle last k b, actions = first :: (middle ++ [last]) →
      first.isQuantum = true → last.isQuantum = true →
      (((boot.init image kernelStackEsp).run image before).act image first).currentTask = k →
      (((boot.init image kernelStackEsp).run image before).run image actions).currentTask = k →
      b ≠ k → StaysRunnable image b
        (((boot.init image kernelStackEsp).run image before).act image first) (middle ++ [last]) →
      b ∈ dispatches image (((boot.init image kernelStackEsp).run image before).act image first)
        middle) := by
  obtain ⟨hbefore, hactions⟩ := schedule_append.mp hs
  have hcurrent := run_current (init_current image boot kernelStackEsp) hbefore
  refine ⟨fun k hstays hquanta => ?_, ?_⟩
  · exact dispatched_of_ahead hcurrent hactions hstays ((ahead_lt _ k).trans_le hquanta)
  · rintro first middle last k b rfl _ hlast hfirst hagain hne hstays
    exact dispatched_between (act_current hcurrent hactions.1) hactions.2 hlast hfirst hagain hne hstays

theorem dispatch_runnable {currentEsp : Word} {prev : Fin kMaxTasks} (h : s.runnable k) :
    (s.dispatch currentEsp prev).2.runnable k := by
  obtain ⟨_, heq⟩ | ⟨_, _, _, _, heq⟩ | ⟨_, _, _, heq⟩ := dispatch_cases s currentEsp prev
  · rw [heq]
    exact h
  · rw [heq]
    by_cases hk : k = s.currentTask
    · subst hk
      exact (congrArg Task.state (setTask_self s _ _)).trans h
    · exact (congrArg Task.state (setTask_of_ne s _ hk)).trans h
  · rw [heq]
    exact h

theorem timer_runnable (h : (s.tasks s.currentTask).state ≠ .unused) (ha : a.isTimer = true)
    (hk : s.runnable k) : (s.act image a).runnable k := by
  cases a with
  | timer virtToPhys currentEsp tickCount =>
    rw [act]
    obtain heq | ⟨next, space, _, _, heq⟩ :=
      onTimerInterrupt_cases virtToPhys currentEsp tickCount h
    · rw [heq]
      exact ticked_runnable hk
    · rw [heq]
      apply dispatch_runnable
      exact @ticked_runnable s k currentEsp tickCount hk
  | _ => cases ha

theorem staysRunnable_of_timers (h : (s.tasks s.currentTask).state ≠ .unused)
    (htimers : ∀ a ∈ actions, a.isTimer = true) (hk : s.runnable k) :
    StaysRunnable image k s actions := by
  induction actions generalizing s with
  | nil => trivial
  | cons a actions ih =>
    obtain ⟨ha, hrest⟩ := List.forall_mem_cons.mp htimers
    have hpermits : s.Permits a := fun hcall => by cases ha.symm.trans hcall
    exact ⟨hk, ih (act_current h hpermits) hrest (timer_runnable h ha hk)⟩

theorem schedule_of_timers (image : Image) (s : Sched) (htimers : ∀ a ∈ actions, a.isTimer = true) :
    Schedule image s actions := by
  induction actions generalizing s with
  | nil => trivial
  | cons a actions ih =>
    obtain ⟨ha, hrest⟩ := List.forall_mem_cons.mp htimers
    refine ⟨fun hcall => ?_, ih _ hrest⟩
    cases ha.symm.trans hcall

def sixteenQuanta : List Action := List.replicate 16 (.timer id 0x002FFF00 10)

-- The kernel makes one task, and both have their turns.
theorem first_task_dispatched :
    1 ∈ dispatches Trace.loadedImage ((Trace.bssSched.init Trace.loadedImage 0x00300000).run
      Trace.loadedImage [Trace.firstTask]) sixteenQuanta := by
  have htimers : ∀ a ∈ sixteenQuanta, a.isTimer = true := by
    intro a ha
    rw [List.eq_of_mem_replicate ha]
    rfl
  have hfirst : Sched.Permits (Trace.bssSched.init Trace.loadedImage 0x00300000) Trace.firstTask :=
    fun _ => by decide +kernel
  have hcurrent := @act_current Trace.loadedImage _ _
    (init_current Trace.loadedImage Trace.bssSched 0x00300000) hfirst
  have hs : Schedule Trace.loadedImage (Trace.bssSched.init Trace.loadedImage 0x00300000)
      ([Trace.firstTask] ++ sixteenQuanta) := ⟨hfirst, schedule_of_timers _ _ htimers⟩
  apply (round_robin_fair Trace.loadedImage Trace.bssSched 0x00300000 hs).1
  · apply staysRunnable_of_timers hcurrent htimers
    rw [runnable]
    decide +kernel
  · decide

end Sched

end Wirth.Kernel.Scheduler

import Wirth.Kernel.Task.Runs
import Wirth.Kernel.Task.Ticks

namespace Wirth.Kernel.Scheduler

open Wirth.Lib Wirth.Lib.X86

namespace Sched

section Resumption

variable {s : Sched}

def resumption (s : Sched) (i : Fin kMaxTasks) : Word × Bool × Word :=
  ((s.tasks i).savedEsp, (s.tasks i).userStarted, (s.tasks i).ring)

theorem resumption_eq_iff {i : Fin kMaxTasks} {esp ring : Word} {started : Bool} :
    s.resumption i = (esp, started, ring) ↔ (s.tasks i).savedEsp = esp ∧
      (s.tasks i).userStarted = started ∧ (s.tasks i).ring = ring := by
  simp only [resumption, Prod.mk.injEq]

theorem resumption_wake (s : Sched) (nowTick : Word) :
    (s.wakeSleepingTasks nowTick).resumption = s.resumption := by
  funext i
  grind [resumption, wakeSleepingTasks]

theorem resumption_setTask {i : Fin kMaxTasks} {t : Task} (hesp : t.savedEsp = (s.tasks i).savedEsp)
    (hstarted : t.userStarted = (s.tasks i).userStarted) (hring : t.ring = (s.tasks i).ring) :
    (s.setTask i t).resumption = s.resumption := by
  grind [resumption, setTask_self, setTask_of_ne]

def espAt (s : Sched) (currentEsp : Word) (i : Fin kMaxTasks) : Word :=
  if i = s.currentTask then currentEsp else (s.tasks i).savedEsp

theorem resumption_ticked (s : Sched) (currentEsp tickCount : Word) (i : Fin kMaxTasks) :
    (s.ticked currentEsp tickCount).resumption i =
      (s.espAt currentEsp i, (s.tasks i).userStarted, (s.tasks i).ring) := by
  rw [ticked, resumption_wake, resumption, espAt]
  by_cases hi : i = s.currentTask
  · rw [hi, setTask_self, if_pos rfl]
  · rw [setTask_of_ne _ _ hi, if_neg hi]

end Resumption

section Creations

def taskPart (s : Sched) : (Fin kMaxTasks → Task) × Fin kMaxTasks × Word × (Word → Word) :=
  (s.tasks, s.currentTask, s.nextTid, s.memory)

variable {image : Image} {s : Sched}

theorem taskPart_dropProcess (s : Sched) (j : Fin kMaxProcesses) :
    (s.dropProcess j).taskPart = s.taskPart := by
  unfold dropProcess
  dsimp only
  split_ifs <;> rfl

structure SameTasks (s s' : Sched) : Prop where
  tasks : ∀ i, (s.tasks i).live = true → s'.tasks i = s.tasks i
  dead : ∀ i, (s.tasks i).live = false → (s'.tasks i).live = false
  currentTask : s'.currentTask = s.currentTask
  nextTid : s'.nextTid = s.nextTid
  memory : s'.memory = s.memory

structure AddsTask (image : Image) (s s' : Sched) (b : Block) (i : Fin kMaxTasks) : Prop where
  slot : s.allocTaskSlot = some i
  size : 4096 ≤ b.size
  others : ∀ k, k ≠ i → s'.tasks k = s.tasks k
  new : NewTask image s b (s'.tasks i) s'.memory
  runnable : (s'.tasks i).state = .runnable
  notStarted : (s'.tasks i).userStarted = false
  currentTask : s'.currentTask = s.currentTask
  nextTid : s'.nextTid = s.nextTid + 1

theorem SameTasks.congr {s s' u : Sched} (h : SameTasks s u) (hs' : s'.taskPart = u.taskPart) :
    SameTasks s s' := by
  simp only [taskPart, Prod.mk.injEq] at hs'
  obtain ⟨htasks, hcurrent, htid, hmemory⟩ := hs'
  refine ⟨?_, ?_, hcurrent.trans h.currentTask, htid.trans h.nextTid, hmemory.trans h.memory⟩
  · rw [htasks]
    exact h.tasks
  · rw [htasks]
    exact h.dead

theorem sameTasks_of_taskPart {s s' : Sched} (h : s'.taskPart = s.taskPart) : SameTasks s s' :=
  SameTasks.congr ⟨fun _ _ => rfl, fun _ hi => hi, rfl, rfl, rfl⟩ h

theorem Enters.adds {s' : Sched} {a : Action} {i : Fin kMaxTasks} {j : Fin kMaxProcesses} {b : Block} {x : Task}
    {m : Word → Word} (h : Enters image s a i b x m) (hs' : s'.taskPart = (s.spawned i j x m).taskPart) :
    AddsTask image s s' b i := by
  simp only [taskPart, Prod.mk.injEq] at hs'
  obtain ⟨htasks, hcurrent, htid, hmemory⟩ := hs'
  have hself : s'.tasks i = x := by
    rw [htasks]
    exact Function.update_self ..
  refine ⟨h.slot, h.size, fun k hk => ?_, ?_, ?_, ?_, hcurrent, htid⟩
  · rw [htasks]
    exact Function.update_of_ne hk ..
  · rw [hself, hmemory]
    exact h.new
  · rw [hself, h.runnable]
  · rw [hself, h.notStarted]

theorem sameTasks_clear {i : Fin kMaxTasks} (hi : s.allocTaskSlot = some i) :
    SameTasks s (s.setTask i .cleared) := by
  have h := Unspoiled.clear (allocTaskSlot_dead hi) (.refl _)
  exact ⟨h.tasks, h.dead, h.currentTask, h.nextTid, h.memory⟩

theorem creation_tasks (image : Image) (s : Sched) {a : Action} (ha : a.isCreation = true) :
    SameTasks s (s.act image a) ∨ ∃ i b, a.stack = some b ∧ AddsTask image s (s.act image a) b i := by
  have hattempt := attempt image s ha
  generalize s.outcome image a = r, s.act image a = s' at hattempt
  cases hattempt with
  | refused _ h => exact .inl ⟨h.tasks, h.dead, h.currentTask, h.nextTid, h.memory⟩
  | kernel _ _ _ h => exact .inr ⟨_, _, h.stack, h.adds rfl⟩
  | unnumbered => exact .inl (sameTasks_of_taskPart rfl)
  | givenUp _ _ _ _ _ hu =>
    obtain rfl | ⟨i, hi, rfl⟩ := hu
    · exact .inl (sameTasks_of_taskPart (taskPart_dropProcess _ _))
    · exact .inl ((sameTasks_clear hi).congr (taskPart_dropProcess _ _))
  | @made i j k p b x m _ _ _ _ _ h => exact .inr ⟨i, b, h.stack, @Enters.adds _ _ _ _ i k _ _ _ h rfl⟩
  | @miscounted s' i j k p b x m _ _ h hs' =>
    refine .inr ⟨i, b, h.stack, @Enters.adds _ _ _ _ i k _ _ _ h ?_⟩
    obtain rfl | ⟨l, rfl⟩ := hs'
    · rfl
    · exact taskPart_dropProcess _ _

theorem taskPart_exitCurrent (hlive : (s.tasks s.currentTask).live = true) :
    s.exitCurrent.taskPart = (s.setTask s.currentTask
      { s.tasks s.currentTask with state := .exited, wakeTick := kNoWakeTick }).taskPart := by
  obtain ⟨hunused, hexited⟩ := live_ne hlive
  have hptr : s.currentTaskPtr = some s.currentTask := by rw [currentTaskPtr, if_neg hunused]
  unfold exitCurrent markCurrentExited
  simp only [hptr, hexited, if_false]
  cases s.findProcess (s.tasks s.currentTask).pid with
  | none =>
    split_ifs <;> rfl
  | some j =>
    dsimp only
    split_ifs <;> rfl

end Creations

section Calls

variable {image : Image} {s : Sched} {a : Action}

structure Call (image : Image) (s : Sched) (a : Action) : Prop where
  currentTask : (s.act image a).currentTask = s.currentTask
  current : ((s.act image a).tasks s.currentTask).state ≠ .unused
  notNew : s.created image a ≠ some s.currentTask
  running : (s.act image a).resumption s.currentTask = s.resumption s.currentTask
  tasks : ∀ k, s.created image a ≠ some k → ((s.act image a).tasks k).live = true →
    (s.tasks k).live = true ∧ (s.act image a).resumption k = s.resumption k
  memory : s.created image a = none → (s.act image a).memory = s.memory
  new : ∀ k, s.created image a = some k →
    ∃ b, a.stack = some b ∧ AddsTask image s (s.act image a) b k

theorem SameTasks.call (h : SameTasks s (s.act image a))
    (hlive : (s.tasks s.currentTask).live = true) : Call image s a := by
  have hnone := created_none h.nextTid
  have hback : ∀ k, ((s.act image a).tasks k).live = true → (s.tasks k).live = true := by
    intro k hk
    by_contra hdead
    rw [h.dead k (Bool.not_eq_true _ ▸ hdead)] at hk
    cases hk
  have hsame : ∀ k, (s.tasks k).live = true → (s.act image a).resumption k = s.resumption k := by
    intro k hk
    rw [resumption, h.tasks k hk]
    rfl
  refine ⟨h.currentTask, ?_, ?_, hsame _ hlive, ?_, fun _ => h.memory, ?_⟩
  · rw [h.tasks _ hlive]
    exact (live_ne hlive).1
  · rw [hnone]
    nofun
  · grind
  · rw [hnone]
    nofun

theorem AddsTask.created {b : Block} {i : Fin kMaxTasks} (h : AddsTask image s (s.act image a) b i) :
    s.created image a = some i := by
  rw [Sched.created, h.nextTid, if_neg (by bv_omega), h.slot]

theorem AddsTask.call {b : Block} {i : Fin kMaxTasks} (h : AddsTask image s (s.act image a) b i)
    (hstack : a.stack = some b) (hlive : (s.tasks s.currentTask).live = true) : Call image s a := by
  have hcreated := h.created
  have hne : s.currentTask ≠ i := by
    rintro rfl
    rw [allocTaskSlot_dead h.slot] at hlive
    cases hlive
  have hother : ∀ k, k ≠ i → (s.act image a).resumption k = s.resumption k := by
    intro k hk
    rw [resumption, h.others k hk]
    rfl
  refine ⟨h.currentTask, ?_, ?_, hother _ hne, ?_, ?_, ?_⟩
  · rw [h.others _ hne]
    exact (live_ne hlive).1
  · simp [symm, hcreated, hne]
  · intro k hk hklive
    have hki : k ≠ i := fun heq => hk (by rw [hcreated, heq])
    rw [h.others k hki] at hklive
    exact ⟨hklive, hother k hki⟩
  · rw [hcreated]
    nofun
  grind

theorem call_setTask {state : TaskState} {wakeTick : Word} (hstate : state ≠ .unused)
    (h : (s.act image a).taskPart = (s.setTask s.currentTask
      { s.tasks s.currentTask with state := state, wakeTick := wakeTick }).taskPart)
    (hlive : (s.tasks s.currentTask).live = true) : Call image s a := by
  simp only [taskPart, Prod.mk.injEq] at h
  obtain ⟨htasks, hcurrent, htid, hmemory⟩ := h
  have hnone := created_none htid
  have hsame : (s.act image a).resumption = s.resumption := by
    rw [show (s.act image a).resumption = (s.setTask s.currentTask
      { s.tasks s.currentTask with state := state, wakeTick := wakeTick }).resumption by
        funext k; rw [resumption, htasks]; rfl]
    exact resumption_setTask rfl rfl rfl
  refine ⟨hcurrent, ?_, ?_, congrFun hsame _, ?_, fun _ => hmemory, ?_⟩
  · rw [htasks, setTask_self]
    exact hstate
  · rw [hnone]
    nofun
  · intro k _ hk
    refine ⟨?_, congrFun hsame k⟩
    by_cases hk' : k = s.currentTask
    · rw [hk']
      exact hlive
    · rw [htasks, setTask_of_ne _ _ hk'] at hk
      exact hk
  · rw [hnone]
    nofun

theorem call (image : Image) (ha : a.isTimer = false) (hlive : (s.tasks s.currentTask).live = true) :
    Call image s a := by
  by_cases hcreation : a.isCreation = true
  · obtain h | ⟨i, b, hstack, h⟩ := creation_tasks image s hcreation
    · exact h.call hlive
    · exact h.call hstack hlive
  · cases a with
    | sleepCurrent ticks nowTick =>
      by_cases hticks : ticks = 0
      · apply SameTasks.call _ hlive
        rw [act, sleepCurrent, if_pos hticks]
        exact sameTasks_of_taskPart rfl
      · apply @call_setTask image s _ .sleeping (nowTick + ticks) (by decide) _ hlive
        rw [act, sleepCurrent, if_neg hticks, currentTaskPtr, if_neg (live_ne hlive).1]
    | exitCurrent => 
        exact @call_setTask image s _ .exited kNoWakeTick (by decide) (taskPart_exitCurrent hlive) hlive
    | timer virtToPhys currentEsp tickCount => cases ha
    | _ => exact absurd rfl hcreation

end Calls

section Ticks

variable {s : Sched} {virtToPhys : Word → Word} {currentEsp tickCount : Word}

inductive Outcome (s : Sched) (currentEsp : Word) (next : Fin kMaxTasks) (r : Word × Sched) : Prop
  | goesOn (hesp : r.1 = s.espAt currentEsp next) (hmemory : r.2.memory = s.memory)
      (hsame : (r.2.tasks next).userStarted = (s.tasks next).userStarted)
      (hstarted : next ≠ s.currentTask → (s.tasks next).ring = 3 →
        (s.tasks next).userStarted = true) : Outcome s currentEsp next r
  | starts (hne : s.espAt currentEsp next ≠ 0) (hring : (s.tasks next).ring = 3)
      (hstarted : (s.tasks next).userStarted = false) (hesp : r.1 = s.espAt currentEsp next - 52)
      (hmemory : r.2.memory = (pushWords s.memory (s.espAt currentEsp next)
        (ring3IretWords (s.tasks next).userEntry (s.tasks next).userEsp0)).1)
      (hstarts : (r.2.tasks next).userStarted = true) : Outcome s currentEsp next r
  | stuck (hother : next ≠ s.currentTask) (hzero : (s.tasks next).savedEsp = 0)
      (hmemory : r.2.memory = s.memory)
      (hsame : (r.2.tasks next).userStarted = (s.tasks next).userStarted) :
      Outcome s currentEsp next r

structure Tick (s : Sched) (currentEsp : Word) (next : Fin kMaxTasks) (r : Word × Sched) : Prop where
  current : r.2.currentTask = next
  chosen : next = s.currentTask ∨ (s.tasks next).live = true
  others : ∀ k, k ≠ next → r.2.resumption k =
    (s.espAt currentEsp k, (s.tasks k).userStarted, (s.tasks k).ring)
  outcome : Outcome s currentEsp next r

theorem onTimerInterrupt_tick (virtToPhys : Word → Word) (currentEsp tickCount : Word)
    (h : (s.tasks s.currentTask).state ≠ .unused) :
    ∃ next, Tick s currentEsp next (s.onTimerInterrupt virtToPhys currentEsp tickCount) := by
  have hsteady := steady_ticked s currentEsp tickCount
  have hticked := resumption_ticked s currentEsp tickCount
  obtain heq | ⟨next, space, hnext, -, heq⟩ :=
    onTimerInterrupt_cases virtToPhys currentEsp tickCount h
  · refine ⟨s.currentTask, ?_⟩
    rw [heq]
    refine ⟨rfl, .inl rfl, fun k _ => hticked k, .goesOn ?_ rfl ?_ ?_⟩
    · rw [espAt, if_pos rfl]
    · exact (resumption_eq_iff.mp (hticked s.currentTask)).2.1
    · exact fun hne => absurd rfl hne
  · have hchosen : next = s.currentTask ∨ (s.tasks next).live = true := by
      rcases pickNextRunnable_spec (s.ticked currentEsp tickCount) s.currentTask with hrun | hsame
      · rw [← hnext] at hrun
        rw [← Task.live_of_core (hsteady.tasks next), Task.live, hrun]
        exact .inr rfl
      · exact .inl (hnext.trans hsame)
    obtain ⟨hsaved, hstarted, hring⟩ := resumption_eq_iff.mp (hticked next)
    obtain ⟨hentry, hesp0, -⟩ := Task.user_of_core (hsteady.tasks next)
    refine ⟨next, ?_⟩
    rw [heq]
    obtain ⟨hzero, hd⟩ | ⟨k, hne, hring3, hnot, hd⟩ | ⟨k, hne, hstarted3, hd⟩ := dispatch_cases
      { s.ticked currentEsp tickCount with currentTask := next, activeSpace := space } currentEsp
      s.currentTask
    · rw [hd]
      refine ⟨rfl, hchosen, fun k _ => hticked k, ?_⟩
      by_cases hcur : next = s.currentTask
      · refine .goesOn ?_ rfl hstarted fun hne => absurd hcur hne
        rw [espAt, if_pos hcur]
      · refine .stuck hcur ?_ rfl hstarted
        rw [espAt, if_neg hcur] at hsaved
        exact hsaved.symm.trans hzero
    · rw [hd]
      rw [hsaved] at hne ⊢
      rw [hring] at hring3
      rw [hstarted] at hnot
      rw [hentry, hesp0]
      refine ⟨rfl, hchosen, ?_, .starts hne hring3 hnot rfl rfl ?_⟩
      · intro k hk
        rw [← hticked k]
        simp only [resumption, setTask, Function.update_of_ne hk]
      · simp only [setTask, Function.update_self]
    · rw [hd]
      rw [hring, hstarted] at hstarted3
      exact ⟨rfl, hchosen, fun k _ => hticked k, .goesOn hsaved rfl hstarted fun _ => hstarted3⟩

end Ticks

end Sched

end Wirth.Kernel.Scheduler

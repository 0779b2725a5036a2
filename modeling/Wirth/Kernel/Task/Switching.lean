import Wirth.Kernel.Task.Waiting

namespace Wirth.Kernel.Scheduler

open Wirth.Lib Wirth.Lib.X86

namespace Sched

section Spaces

variable {s : Sched}

theorem setProcess_threads (s : Sched) (j k : Fin kMaxProcesses) (n : Word) :
    ((s.setProcess j { s.processes j with liveThreads := n }).processes k).used =
        (s.processes k).used ∧
      ((s.setProcess j { s.processes j with liveThreads := n }).processes k).pid =
        (s.processes k).pid ∧
      ((s.setProcess j { s.processes j with liveThreads := n }).processes k).addressSpace =
        (s.processes k).addressSpace := by
  grind [setProcess_self, setProcess_of_ne]

theorem enterProcess_space {virtToPhys : Word → Word} {prev : Fin kMaxTasks} {j : Fin kMaxProcesses}
    (hfind : s.findProcess (s.tasks s.currentTask).pid = some j)
    (hspace : (s.processes j).addressSpace ≠ 0) (hmapped : virtToPhys (s.processes j).addressSpace ≠ 0)
    (hsame : (s.tasks prev).pid = (s.tasks s.currentTask).pid →
      s.activeSpace = (s.processes j).addressSpace) :
    (s.enterProcess virtToPhys prev).activeSpace = (s.processes j).addressSpace := by
  unfold enterProcess
  by_cases hpid : (s.tasks prev).pid = (s.tasks s.currentTask).pid
  · simp [hpid, hsame]
  · rw [if_pos hpid, hfind]
    simp only [switchAddressSpace, if_neg hspace, if_neg hmapped]

theorem dispatch_activeSpace (s : Sched) (currentEsp : Word) (prev : Fin kMaxTasks) :
    (s.dispatch currentEsp prev).2.activeSpace = s.activeSpace := by
  obtain ⟨-, h⟩ | ⟨k, -, -, -, h⟩ | ⟨k, -, -, h⟩ := dispatch_cases s currentEsp prev
  all_goals exact congrArg (fun x : Word × Sched => x.2.activeSpace) h

theorem timer_space {virtToPhys : Word → Word} {currentEsp tickCount : Word} {next : Fin kMaxTasks}
    {j : Fin kMaxProcesses} (h : (s.tasks s.currentTask).state ≠ .unused)
    (hnext : (s.onTimerInterrupt virtToPhys currentEsp tickCount).2.currentTask = next)
    (hfind : s.findProcess (s.tasks next).pid = some j)
    (hspace : (s.processes j).addressSpace ≠ 0) (hmapped : virtToPhys (s.processes j).addressSpace ≠ 0)
    (hsame : (s.tasks s.currentTask).pid = (s.tasks next).pid →
      s.activeSpace = (s.processes j).addressSpace) :
    (s.onTimerInterrupt virtToPhys currentEsp tickCount).2.activeSpace =
      (s.processes j).addressSpace := by
  have hsteady := steady_ticked s currentEsp tickCount
  obtain heq | ⟨next', space, -, henter, heq⟩ :=
    onTimerInterrupt_cases virtToPhys currentEsp tickCount h
  · rw [heq] at hnext ⊢
    have hnext : s.currentTask = next := hnext
    exact hsame (by rw [hnext])
  · rw [heq, dispatch_currentTask] at hnext
    have hnext : next' = next := hnext
    rw [heq, dispatch_activeSpace, henter, hnext]
    have hpid : ∀ k, ((s.ticked currentEsp tickCount).tasks k).pid = (s.tasks k).pid :=
      fun k => Task.pid_of_core (hsteady.tasks k)
    have hprocesses : (s.ticked currentEsp tickCount).processes = s.processes := hsteady.processes
    have hgoal := @enterProcess_space { s.ticked currentEsp tickCount with currentTask := next }
      virtToPhys s.currentTask j
    rw [hpid, hpid, hprocesses] at hgoal
    exact hgoal hfind hspace hmapped hsame

end Spaces

end Sched

section Hosts

variable {s u : Sched} {j : Fin kMaxProcesses}

theorem Host.kept (h : Host s j u) {k : Fin kMaxProcesses} (hk : (s.processes k).used = true) :
    u.processes k = s.processes k := by
  cases h with
  | existing => rfl
  | entered p hfree =>
    apply Sched.setProcess_of_ne
    rintro rfl
    rw [hfree] at hk
    cases hk

theorem Host.spaces (h : Host s j u)
    (hs : ∀ k, (s.processes k).used = true → (s.processes k).addressSpace ≠ 0)
    {k : Fin kMaxProcesses} (hk : (u.processes k).used = true) : (u.processes k).addressSpace ≠ 0 := by
  cases h with
  | existing => exact hs k hk
  | entered p hfree hused hpid hlive hspace =>
    by_cases hkj : k = j
    · rw [hkj, show (s.opened j p).processes j = p from Function.update_self ..]
      exact hspace
    · rw [show (s.opened j p).processes k = s.processes k from Function.update_of_ne hkj ..] at hk ⊢
      exact hs k hk

end Hosts

namespace Trace

variable {image : Image} {t : Trace} {a : Action}

-- The tick comes with a stack pointer, and the page directory of the task that it chooses is
-- mapped.
def Resumable (image : Image) (t : Trace) (a : Action) : Prop :=
  match a with
  | .timer virtToPhys currentEsp _ =>
      currentEsp ≠ 0 ∧ ∀ j, (t.sched.processes j).used = true →
        (t.sched.processes j).pid =
          ((t.sched.act image a).tasks (t.sched.act image a).currentTask).pid →
        virtToPhys (t.sched.processes j).addressSpace ≠ 0
  | _ => True

-- The processor has the page directory of the current task's process.
def InSpace (s : Sched) : Prop :=
  ∃ j, (s.processes j).used = true ∧ (s.processes j).pid = (s.tasks s.currentTask).pid ∧
    s.activeSpace = (s.processes j).addressSpace

instance (s : Sched) : Decidable (InSpace s) := inferInstanceAs (Decidable (∃ _, _))

def Saved (t : Trace) : Prop :=
  ∀ i, (t.sched.tasks i).live = true → t.ran i = true → i ≠ t.sched.currentTask →
    t.lastEsp i = some (t.sched.tasks i).savedEsp ∧ (t.sched.tasks i).savedEsp ≠ 0

section Saved

variable {virtToPhys : Word → Word} {currentEsp tickCount : Word} {next : Fin kMaxTasks}

theorem boot_saved (image : Image) (s : Sched) (kernelStackEsp : Word) :
    (boot image s kernelStackEsp).Saved := by
  have hfresh : Sched.Fresh image kernelStackEsp (boot image s kernelStackEsp).sched :=
    Sched.init_fresh kernelStackEsp rfl
  intro i _ hran hne
  rw [hfresh.currentTask] at hne
  exact absurd (of_decide_eq_true hran) hne

theorem Saved.call (h : t.Saved) (hbegun : t.Begun image) (hcall : Sched.Call image t.sched a)
    (htick : a.tickEsp = none) : (t.act image a).Saved := by
  intro k hlive hran hne
  have hk : t.sched.created image a ≠ some k := by
    intro hnew
    simp only [Trace.act, if_pos hnew] at hran
    cases hran
  have hlast : (t.act image a).lastEsp k = t.lastEsp k := by
    simp only [Trace.act, if_neg hk, htick]
    split_ifs <;> rfl
  obtain ⟨hlive, hsame⟩ := hcall.tasks k hk hlive
  rw [act_ran hcall.currentTask hbegun.ran hk] at hran
  change k ≠ (t.sched.act image a).currentTask at hne
  rw [hcall.currentTask] at hne
  rw [hlast, show ((t.act image a).sched.tasks k).savedEsp = (t.sched.tasks k).savedEsp from
    congrArg Prod.fst hsame]
  exact h k hlive hran hne

theorem Saved.espAt (h : t.Saved) (hesp : currentEsp ≠ 0) {k : Fin kMaxTasks}
    (hk : k = t.sched.currentTask ∨ (t.sched.tasks k).live = true) (hran : t.ran k = true) :
    (if k = t.sched.currentTask then some currentEsp else t.lastEsp k) =
      some (t.sched.espAt currentEsp k) ∧ t.sched.espAt currentEsp k ≠ 0 := by
  rw [Sched.espAt]
  by_cases hcur : k = t.sched.currentTask
  · grind
  · rw [if_neg hcur, if_neg hcur]
    exact h k (hk.resolve_left hcur) hran hcur

theorem Saved.tick (h : t.Saved) (hesp : currentEsp ≠ 0)
    (htick : Ticked image t virtToPhys currentEsp tickCount next) :
    (t.act image (.timer virtToPhys currentEsp tickCount)).Saved := by
  intro k hlive hran hne
  have hcurrent : (t.act image (.timer virtToPhys currentEsp tickCount)).sched.currentTask = next :=
    htick.tick.current
  have hlive' : (t.sched.tasks k).live = true :=
    (Task.live_of_core (htick.steady.tasks k)).symm.trans hlive
  rw [hcurrent] at hne
  rw [htick.ran, decide_eq_false hne, Bool.or_false] at hran
  obtain ⟨hsaved, -, -⟩ := Sched.resumption_eq_iff.mp (htick.tick.others k hne)
  rw [htick.lastEsp, show ((t.act image (.timer virtToPhys currentEsp tickCount)).sched.tasks
    k).savedEsp = t.sched.espAt currentEsp k from hsaved]
  exact h.espAt hesp (.inr hlive') hran

theorem Saved.returns (h : t.Saved) (hbegun : t.Begun image) (hesp : currentEsp ≠ 0)
    (htick : Ticked image t virtToPhys currentEsp tickCount next) (hran : t.ran next = true) :
    (t.act image (.timer virtToPhys currentEsp tickCount)).lastEsp next =
      some (t.sched.onTimerInterrupt virtToPhys currentEsp tickCount).1 := by
  obtain ⟨hlast, hne⟩ := h.espAt hesp htick.tick.chosen hran
  rw [htick.lastEsp, hlast]
  cases htick.tick.outcome with
  | goesOn hret => rw [hret]
  | starts _ hring hstarted =>
    rw [hbegun.started next htick.tick.chosen hran hring] at hstarted
    cases hstarted
  | stuck hother hzero =>
    rw [Sched.espAt, if_neg hother] at hne
    exact absurd hzero hne

theorem Run.saved (h : Run image (Resumable image) t) : t.Saved := by
  induction h with
  | boot s kernelStackEsp => exact boot_saved image s kernelStackEsp
  | @act t a ht hpermits hallowed ih =>
    have hbegun := ht.begun
    cases ha : a.isTimer with
    | false =>
      have hlive := Task.live_of_ne hbegun.current (hpermits.running ha)
      exact ih.call hbegun (Sched.call image ha hlive) (by cases a <;> first | rfl | cases ha)
    | true =>
      cases a with
      | timer virtToPhys currentEsp tickCount =>
        obtain ⟨next, htick⟩ := timer_ticked image virtToPhys currentEsp tickCount hbegun.current
        exact ih.tick hallowed.1 htick
      | _ => cases ha

end Saved

-- The processor is in the address space of the current task, and every process has one.
structure InSpaces (s : Sched) : Prop where
  spaces : ∀ j, (s.processes j).used = true → (s.processes j).addressSpace ≠ 0
  inSpace : InSpace s

section InSpaces

variable {virtToPhys : Word → Word} {currentEsp tickCount : Word} {next : Fin kMaxTasks}

theorem boot_inSpaces (image : Image) (s : Sched) (kernelStackEsp : Word) :
    InSpaces (boot image s kernelStackEsp).sched := by
  have hfresh : Sched.Fresh image kernelStackEsp (boot image s kernelStackEsp).sched :=
    Sched.init_fresh kernelStackEsp rfl
  obtain ⟨p, hused, hpid, -, hspace, hprocesses⟩ := hfresh.processes
  refine ⟨?_, 0, ?_, ?_, ?_⟩
  · intro j hj
    by_cases hj0 : j = 0
    · rw [hprocesses, hj0, Function.update_self, hspace]
      exact image.directory_pos
    · rw [hprocesses, Function.update_of_ne hj0] at hj
      cases hj
  · rw [hprocesses, Function.update_self]
    exact hused
  · rw [hprocesses, hfresh.tasks, hfresh.currentTask, Function.update_self, Function.update_self]
    exact hpid
  · rw [hprocesses, Function.update_self, hspace]
    exact hfresh.activeSpace

variable {s s' : Sched}

theorem InSpace.keep (h : InSpace s) (hcurrent : s'.currentTask = s.currentTask)
    (hspace : s'.activeSpace = s.activeSpace)
    (hpid : (s'.tasks s.currentTask).pid = (s.tasks s.currentTask).pid)
    (hprocesses : ∀ j, (s.processes j).used = true → (s'.processes j).used = true ∧
      (s'.processes j).pid = (s.processes j).pid ∧
      (s'.processes j).addressSpace = (s.processes j).addressSpace) : InSpace s' := by
  obtain ⟨j, hused, hj, hactive⟩ := h
  obtain ⟨hused', hpid', hspace'⟩ := hprocesses j hused
  refine ⟨j, hused', ?_, ?_⟩
  · rw [hpid', hcurrent, hpid, hj]
  · rw [hspace, hspace', hactive]

theorem InSpaces.unspoiled (h : InSpaces s) (hlive : (s.tasks s.currentTask).live = true)
    (hu : Sched.Unspoiled s s') : InSpaces s' := by
  constructor
  · intro j hj
    by_cases hused : (s.processes j).used = true
    · rw [hu.processes j hused]
      exact h.spaces j hused
    · rw [hu.free j (Bool.not_eq_true _ ▸ hused)] at hj
      cases hj
  · apply h.inSpace.keep hu.currentTask hu.activeSpace
    · rw [hu.tasks _ hlive]
    · intro j hj
      rw [hu.processes j hj]
      exact ⟨hj, rfl, rfl⟩

theorem InSpaces.sleep (h : InSpaces s) (hlive : (s.tasks s.currentTask).live = true)
    (ticks nowTick : Word) : InSpaces (s.sleepCurrent ticks nowTick) := by
  have hsteady := Sched.steady_sleepCurrent ticks nowTick hlive
  have hspace : (s.sleepCurrent ticks nowTick).activeSpace = s.activeSpace := by
    unfold Sched.sleepCurrent Sched.currentTaskPtr
    split_ifs <;> rfl
  constructor
  · rw [hsteady.processes]
    exact h.spaces
  · apply h.inSpace.keep (Sched.sleepCurrent_currentTask s ticks nowTick) hspace
      (Task.pid_of_core (hsteady.tasks _))
    intro j hj
    rw [hsteady.processes]
    exact ⟨hj, rfl, rfl⟩

theorem InSpaces.exit (h : InSpaces s) (hb : s.ledger.Balanced)
    (hlive : (s.tasks s.currentTask).live = true) : InSpaces s.exitCurrent := by
  obtain ⟨j, c, -, -, -, heq⟩ := Sched.exitCurrent_cases hb hlive
  rw [heq]
  constructor
  · intro k hk
    obtain ⟨hused, -, hspace⟩ :=
      Sched.setProcess_threads s j k ((s.processes j).liveThreads - 1)
    exact fun hzero => h.spaces k (hused.symm.trans hk) (hspace.symm.trans hzero)
  · refine h.inSpace.keep ?_ ?_ ?_ ?_
    · rfl
    · rfl
    · simp [Sched.setTask]
    · intro k hk
      obtain ⟨hused, hpid, hspace⟩ :=
        Sched.setProcess_threads s j k ((s.processes j).liveThreads - 1)
      exact ⟨hused.trans hk, hpid, hspace⟩

theorem InSpaces.spawn {s u : Sched} {i : Fin kMaxTasks} {j : Fin kMaxProcesses} {x : Task}
    {m : Word → Word} (h : InSpaces s) (hlive : (s.tasks s.currentTask).live = true)
    (hhost : Host s j u) (hslot : s.allocTaskSlot = some i) : InSpaces (u.spawned i j x m) := by
  obtain ⟨htasks, hcurrent, -, hspace, -⟩ := hhost.same
  have hdead := Sched.allocTaskSlot_dead hslot
  have hne : s.currentTask ≠ i := by
    rintro rfl
    rw [hdead] at hlive
    cases hlive
  have hprocess : ∀ k, ((u.spawned i j x m).processes k).used = (u.processes k).used ∧
      ((u.spawned i j x m).processes k).pid = (u.processes k).pid ∧
      ((u.spawned i j x m).processes k).addressSpace = (u.processes k).addressSpace :=
    fun k => Sched.setProcess_threads u j k _
  constructor
  · intro k hk
    obtain ⟨hused, -, hspace⟩ := hprocess k
    rw [hspace]
    exact hhost.spaces h.spaces (hused.symm.trans hk)
  · refine h.inSpace.keep ?_ ?_ ?_ ?_
    · exact hcurrent
    · exact hspace
    · change (Function.update u.tasks i x s.currentTask).pid = _
      rw [Function.update_of_ne hne, htasks]
    · intro k hk
      obtain ⟨hused, hpid, hspace⟩ := hprocess k
      rw [hused, hpid, hspace, hhost.kept hk]
      exact ⟨hk, rfl, rfl⟩

theorem InSpaces.process (h : InSpaces s) (hb : s.ledger.Balanced) {k : Fin kMaxTasks}
    (hk : k = s.currentTask ∨ (s.tasks k).live = true) :
    ∃ j, (s.processes j).used = true ∧ (s.processes j).pid = (s.tasks k).pid ∧
      s.findProcess (s.tasks k).pid = some j ∧
      ((s.tasks s.currentTask).pid = (s.tasks k).pid →
        s.activeSpace = (s.processes j).addressSpace) := by
  have hc := Sched.consistent_of_balanced hb
  obtain ⟨j, hused, hpid⟩ : ∃ j, (s.processes j).used = true ∧
      (s.processes j).pid = (s.tasks k).pid := by
    rcases hk with rfl | hlive
    · obtain ⟨j, hused, hpid, -⟩ := h.inSpace
      exact ⟨j, hused, hpid⟩
    · exact hc.owner k hlive
  refine ⟨j, hused, hpid, ?_, ?_⟩
  · rw [← hpid]
    apply Sched.findProcess_of_account (a := ⟨_, (s.processes j).liveThreads⟩) hb
    simp [Sched.ledger, Process.account, hused]
  · intro hsame
    obtain ⟨l, hlused, hlpid, hactive⟩ := h.inSpace
    rw [hactive, hc.pids l j hlused hused (by rw [hlpid, hsame, hpid])]

-- A tick takes the processor to the address space of the task that it chooses.
theorem InSpaces.tick (h : InSpaces s) (hb : s.ledger.Balanced)
    (hcurrent : (s.tasks s.currentTask).state ≠ .unused)
    (htick : s.Tick currentEsp next (s.onTimerInterrupt virtToPhys currentEsp tickCount))
    (hmapped : ∀ j, (s.processes j).used = true → (s.processes j).pid = (s.tasks next).pid →
      virtToPhys (s.processes j).addressSpace ≠ 0) :
    InSpaces (s.onTimerInterrupt virtToPhys currentEsp tickCount).2 := by
  have hsteady := Sched.steady_timer s virtToPhys currentEsp tickCount
  obtain ⟨j, hused, hpid, hfind, hsame⟩ := h.process hb htick.chosen
  constructor
  · rw [hsteady.processes]
    exact h.spaces
  refine ⟨j, ?_, ?_, ?_⟩
  · rw [hsteady.processes]
    exact hused
  · rw [hsteady.processes, htick.current, Task.pid_of_core (hsteady.tasks next)]
    exact hpid
  · rw [hsteady.processes]
    exact Sched.timer_space hcurrent htick.current hfind (h.spaces j hused) (hmapped j hused hpid) hsame

theorem InSpaces.act (h : InSpaces t.sched) (hinv : t.Inv) (hpermits : t.Permits a)
    (hallowed : t.Resumable image a) (hcreations : (t.act image a).creations < 2 ^ 32 - 1) :
    InSpaces (t.act image a).sched := by
  change InSpaces (t.sched.act image a)
  by_cases ha : a.isCreation = true
  · have hcount : t.creations + 2 < 2 ^ 32 := by
      rw [Trace.act, ha] at hcreations
      change t.creations + 1 < 2 ^ 32 - 1 at hcreations
      omega
    have hlive := Task.live_of_ne hinv.current
      (hpermits.running (by cases a <;> first | rfl | cases ha))
    obtain hu | ⟨u, i, j, x, m, b, hhost, -, hslot, -, -, -, -, -, -, hact⟩ :=
      Sched.creation_cases image (hinv.numbered hcount) ha
    · exact h.unspoiled hlive hu
    · rw [hact]
      exact h.spawn hlive hhost hslot
  · cases a with
    | createKernelTask | createProcessTask | createRing3Task => exact absurd rfl ha
    | sleepCurrent ticks nowTick =>
      exact h.sleep (Task.live_of_ne hinv.current (hpermits.running rfl)) ticks nowTick
    | exitCurrent => exact h.exit hinv.balanced (Task.live_of_ne hinv.current (hpermits.running rfl))
    | timer virtToPhys currentEsp tickCount =>
      obtain ⟨next, htick⟩ :=
        Sched.onTimerInterrupt_tick virtToPhys currentEsp tickCount hinv.current
      apply h.tick hinv.balanced hinv.current htick
      intro j hused hpid
      apply hallowed.2 j hused
      rw [hpid, show (t.sched.act image (.timer virtToPhys currentEsp tickCount)).currentTask = next
        from htick.current]
      exact (Task.pid_of_core
        ((Sched.steady_timer t.sched virtToPhys currentEsp tickCount).tasks next)).symm

theorem Run.inSpaces (h : Run image (Resumable image) t) (hcreations : t.creations < 2 ^ 32 - 1) :
    InSpaces t.sched := by
  induction h with
  | boot s kernelStackEsp => exact boot_inSpaces image s kernelStackEsp
  | @act t a ht hpermits hallowed ih =>
    have hbefore : t.creations < 2 ^ 32 - 1 := lt_of_le_of_lt (Nat.le_add_right _ _) hcreations
    exact (ih hbefore).act (ht.inv hbefore) hpermits hallowed hcreations

end InSpaces

-- A tick goes on with the stack pointer that the chosen task had and, as long as the numbers of
-- processes have not run through all their values, in its address space.
theorem tick_resumes {t : Trace} {virtToPhys : Word → Word} {currentEsp tickCount : Word}
    (h : Run image (Resumable image) t)
    (hallowed : t.Resumable image (.timer virtToPhys currentEsp tickCount)) :
    (t.ran (t.act image (.timer virtToPhys currentEsp tickCount)).sched.currentTask = true →
      (t.act image (.timer virtToPhys currentEsp tickCount)).lastEsp
          (t.act image (.timer virtToPhys currentEsp tickCount)).sched.currentTask =
        some (t.sched.onTimerInterrupt virtToPhys currentEsp tickCount).1) ∧
    (t.creations < 2 ^ 32 - 1 →
      InSpace (t.act image (.timer virtToPhys currentEsp tickCount)).sched) := by
  have hbegun := h.begun
  obtain ⟨next, htick⟩ := timer_ticked image virtToPhys currentEsp tickCount hbegun.current
  constructor
  · rw [show (t.act image (.timer virtToPhys currentEsp tickCount)).sched.currentTask = next from
      htick.tick.current]
    exact h.saved.returns hbegun hallowed.1 htick
  · intro hcreations
    apply InSpaces.inSpace
    exact (h.inSpaces hcreations).act (h.inv hcreations) ⟨nofun, fun _ hb => by cases hb⟩ hallowed
      hcreations

theorem resumable_of_mapped (image : Image) (t : Trace) {currentEsp : Word} (tickCount : Word)
    (hesp : currentEsp ≠ 0) : t.Resumable image (.timer (fun _ => 1) currentEsp tickCount) :=
  ⟨hesp, fun _ _ _ => (by decide : (1 : Word) ≠ 0)⟩

-- The second tick of a quantum goes back to the task that the first one has interrupted.
theorem tick_resumes_boot :
    ((booted.act loadedImage firstTask).act loadedImage (.timer (fun _ => 1) 0x002FFF00 10)).ran 0 =
      true ∧
    (((booted.act loadedImage firstTask).act loadedImage (.timer (fun _ => 1) 0x002FFF00 10)).act
      loadedImage (.timer (fun _ => 1) 0xD0000F00 20)).lastEsp
        (((booted.act loadedImage firstTask).act loadedImage (.timer (fun _ => 1) 0x002FFF00 10)).act
          loadedImage (.timer (fun _ => 1) 0xD0000F00 20)).sched.currentTask =
      some (((booted.act loadedImage firstTask).act loadedImage
        (.timer (fun _ => 1) 0x002FFF00 10)).sched.onTimerInterrupt (fun _ => 1) 0xD0000F00 20).1 := by
  have hrun : Run loadedImage (Resumable loadedImage)
      ((booted.act loadedImage firstTask).act loadedImage (.timer (fun _ => 1) 0x002FFF00 10)) := by
    apply Run.act (firstTask_run _ trivial) ⟨nofun, fun _ hb => by cases hb⟩
    exact resumable_of_mapped _ _ _ (by decide)
  refine ⟨by decide +kernel, ?_⟩
  apply (tick_resumes hrun (resumable_of_mapped _ _ _ (by decide))).1
  decide +kernel

def refused : Action := .createProcessTask none 0 0 0 0

theorem refused_act {s : Sched} (hslot : firstSlot (fun p : Process => !p.used) s.processes = some 1)
    (hcleared : s.processes 1 = .cleared) (hcount : s.processCount ≠ 0) :
    s.act image refused = { s with nextPid := s.nextPid + 1 } := by
  have hcreate : s.createProcess image none s.currentProcessId 0 =
      (0, { s with nextPid := s.nextPid + 1 }) := by
    have hspace : ¬((s.entered 1 s.currentProcessId).processCount = 0 ∧ s.currentProcessId = 0) :=
      fun h => hcount h.1
    unfold Sched.createProcess
    rw [hslot]
    dsimp only
    rw [if_neg hspace, if_pos rfl]
    simp only [Sched.entered, Sched.setProcess, Function.update_idem]
    rw [← hcleared, Function.update_eq_self]
  rw [refused, Sched.act, Sched.createProcessTask, hcreate]
  rfl

theorem refused_run (n : Nat) : ∃ t, Run loadedImage (Resumable loadedImage) t ∧ t.blocks = [] ∧
    t.sched = { booted.sched with nextPid := 2 + BitVec.ofNat 32 n } := by
  have hslot : firstSlot (fun p : Process => !p.used) booted.sched.processes = some 1 := by
    decide +kernel
  have hcleared : booted.sched.processes 1 = .cleared := by decide +kernel
  have hcount : booted.sched.processCount ≠ 0 := by decide +kernel
  have hstate : (booted.sched.tasks booted.sched.currentTask).state ≠ .exited := by decide +kernel
  induction n with
  | zero => exact ⟨booted, .boot bssSched 0x00300000, rfl, rfl⟩
  | succ n ih =>
    obtain ⟨t, hrun, hblocks, hsched⟩ := ih
    have hact : t.sched.act loadedImage refused = { t.sched with nextPid := t.sched.nextPid + 1 } := by
      rw [hsched]
      exact refused_act hslot hcleared hcount
    refine ⟨t.act loadedImage refused, .act hrun (permits_of_free ?_ nofun hblocks) trivial, ?_, ?_⟩
    · rw [hsched]
      exact hstate
    · simp [Trace.act, Sched.created_none, hact, hblocks]
    · change t.sched.act loadedImage refused = _
      grind [BitVec.ofNat_add]

-- The process that gets number 1 again has a page directory and no thread. It is the kernel's
-- process that is given up in its place.
theorem kernel_process_lost : ∃ t, Run loadedImage (Resumable loadedImage) t ∧
    t.Resumable loadedImage (.timer (fun _ => 1) 0x002FFF00 10) ∧
    ¬InSpace (t.act loadedImage (.timer (fun _ => 1) 0x002FFF00 10)).sched := by
  obtain ⟨t, hrun, hblocks, hsched⟩ := refused_run (2 ^ 32 - 1)
  refine ⟨t.act loadedImage (.createProcessTask none 0 0 0xD0001000 0),
    .act hrun (permits_of_free ?_ nofun hblocks) trivial,
    resumable_of_mapped _ _ _ (by decide), ?_⟩
  · rw [hsched]
    decide +kernel
  · change ¬InSpace ((t.sched.act loadedImage (.createProcessTask none 0 0 0xD0001000 0)).act loadedImage
      (.timer (fun _ => 1) 0x002FFF00 10))
    rw [hsched]
    decide +kernel

end Trace

end Wirth.Kernel.Scheduler

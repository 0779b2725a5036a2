import Wirth.Kernel.Task.Fairness

namespace Wirth.Kernel.Scheduler

open Wirth.Lib Wirth.Lib.X86

def Action.tickCount : Action → Option Word
  | timer _ _ tickCount => some tickCount
  | _ => none

namespace Sched

variable {image : Image} {s : Sched} {a : Action} {actions : List Action} {i : Fin kMaxTasks}
  {now : Word} {r : Nat}

def timers (actions : List Action) : Nat := actions.countP Action.isTimer

-- What can happen while the task `i` waits. Every tick counts up by one, and `i` itself calls
-- neither `sleep_current` nor `exit_current`.
def Awaits (image : Image) (i : Fin kMaxTasks) : Word → Sched → List Action → Prop
  | _, _, [] => True
  | now, s, a :: rest =>
      s.Permits a ∧ (s.currentTask = i → a.isTimer = true ∨ a.isCreation = true) ∧
        (∀ tick, a.tickCount = some tick → tick = now + 1) ∧
        Awaits image i (a.tickCount.getD now) (s.act image a) rest

-- The task is made runnable by the tick of that number, and by none before it.
def WakesAfter (image : Image) (s : Sched) (now ticks : Word) : Prop :=
  ∀ actions, Awaits image s.currentTask now (s.sleepCurrent ticks now) actions →
    (((s.sleepCurrent ticks now).run image actions).tasks s.currentTask).state =
      if timers actions < ticks.toNat then .sleeping else .runnable

-- Whenever the task looks whether it still sleeps, it sees whether that tick has come.
def SeenAsleep (image : Image) (s : Sched) (now ticks : Word) : Prop :=
  ∀ actions, Awaits image s.currentTask now (s.sleepCurrent ticks now) actions →
    ((s.sleepCurrent ticks now).run image actions).currentTask = s.currentTask →
    ((s.sleepCurrent ticks now).run image actions).isCurrentSleeping
      (now + BitVec.ofNat 32 (timers actions)) = decide (timers actions < ticks.toNat)

section Steps

def pending (s : Sched) (i : Fin kMaxTasks) : TaskState × Word :=
  ((s.tasks i).state, (s.tasks i).wakeTick)

theorem pending_dispatch (s : Sched) (currentEsp : Word) (prev : Fin kMaxTasks) :
    (s.dispatch currentEsp prev).2.pending = s.pending := by
  obtain ⟨-, h⟩ | ⟨k, -, -, -, h⟩ | ⟨k, -, -, h⟩ := dispatch_cases s currentEsp prev
  · rw [h]
  · rw [h]
    funext i
    by_cases hi : i = s.currentTask
    · subst hi
      simp [pending]
    · simp [pending, setTask_of_ne _ _ hi]
  · rw [h]
    rfl

theorem pending_ticked (s : Sched) (currentEsp tickCount : Word) (i : Fin kMaxTasks) :
    (s.ticked currentEsp tickCount).pending i =
      if (s.tasks i).state = .sleeping ∧ (s.tasks i).wakeTick ≤ tickCount then (.runnable, kNoWakeTick)
      else s.pending i := by
  have hset : (s.setTask s.currentTask
      { s.tasks s.currentTask with savedEsp := currentEsp }).pending i = s.pending i := by
    by_cases hi : i = s.currentTask
    · subst hi
      simp [pending]
    · simp [pending, setTask_of_ne _ _ hi]
  grind [ticked, pending, wakeSleepingTasks]

theorem pending_timer (virtToPhys : Word → Word) (currentEsp tickCount : Word) (i : Fin kMaxTasks)
    (h : (s.tasks s.currentTask).state ≠ .unused) :
    (s.act image (.timer virtToPhys currentEsp tickCount)).pending i =
      if (s.tasks i).state = .sleeping ∧ (s.tasks i).wakeTick ≤ tickCount then (.runnable, kNoWakeTick)
      else s.pending i := by
  rw [act, ← pending_ticked s currentEsp tickCount i]
  obtain heq | ⟨next, space, -, -, heq⟩ := onTimerInterrupt_cases virtToPhys currentEsp tickCount h
  · rw [heq]
  · rw [heq, pending_dispatch]
    rfl

theorem tasks_call (h : (s.tasks s.currentTask).state ≠ .unused) (hpermits : s.Permits a)
    (ha : a.isTimer = false) (hi : s.currentTask = i → a.isCreation = true)
    (hlive : (s.tasks i).live = true) : (s.act image a).tasks i = s.tasks i := by
  have hcurrent := Task.live_of_ne h (hpermits ha)
  by_cases hcreation : a.isCreation = true
  · obtain hsame | ⟨k, b, -, hadds⟩ := creation_tasks image s hcreation
    · exact hsame.tasks i hlive
    · apply hadds.others
      rintro rfl
      rw [allocTaskSlot_dead hadds.slot] at hlive
      cases hlive
  · have hne : i ≠ s.currentTask := fun heq => hcreation (hi heq.symm)
    cases a with
    | sleepCurrent ticks nowTick =>
      rw [act, sleepCurrent, currentTaskPtr, if_neg h]
      grind [setTask_of_ne]
    | exitCurrent =>
      have htasks := (Prod.mk.inj (taskPart_exitCurrent hcurrent)).1
      rw [act, htasks]
      exact setTask_of_ne s _ hne
    | timer virtToPhys currentEsp tickCount => cases ha
    | _ => exact absurd rfl hcreation

end Steps

-- From `now` on, `r` ticks bring the counter to the wake tick and no fewer do.
def OnTime (now : Word) (r : Nat) : Prop := now.toNat + r < 2 ^ 32 ∨ now = -1

inductive Phase (i : Fin kMaxTasks) (now : Word) (s : Sched) : Nat → Prop
  | awake (hcurrent : (s.tasks s.currentTask).state ≠ .unused)
      (hstate : (s.tasks i).state = .runnable) : Phase i now s 0
  | asleep {r : Nat} (hcurrent : (s.tasks s.currentTask).state ≠ .unused)
      (hstate : (s.tasks i).state = .sleeping)
      (hwake : (s.tasks i).wakeTick = now + BitVec.ofNat 32 (r + 1)) (hr : r + 1 < 2 ^ 32)
      (hon : OnTime now (r + 1)) : Phase i now s (r + 1)

section Phases

theorem Phase.current (h : Phase i now s r) : (s.tasks s.currentTask).state ≠ .unused := by
  cases h <;> assumption

theorem Phase.live (h : Phase i now s r) : (s.tasks i).live = true := by
  cases h with
  | awake hcurrent hstate => simp [Task.live, hstate]
  | asleep hcurrent hstate => simp [Task.live, hstate]

theorem Phase.state_eq (h : Phase i now s r) :
    (s.tasks i).state = if 0 < r then .sleeping else .runnable := by
  cases h with
  | awake hcurrent hstate => exact hstate
  | asleep hcurrent hstate => rw [if_pos (Nat.succ_pos _), hstate]

theorem Phase.call (h : Phase i now s r) (hpermits : s.Permits a) (ha : a.isTimer = false)
    (hi : s.currentTask = i → a.isCreation = true) : Phase i now (s.act image a) r := by
  have hcurrent := @act_current image s a h.current hpermits
  have htask := @tasks_call image s a i h.current hpermits ha hi h.live
  cases h with
  | awake _ hstate => exact .awake hcurrent (by rw [htask, hstate])
  | asleep _ hstate hwake hr hon =>
    exact .asleep hcurrent (by rw [htask, hstate]) (by rw [htask, hwake]) hr hon

-- With one tick to wait, the next one wakes the task. With more, it does not.
theorem Phase.timer (h : Phase i now s r) (virtToPhys : Word → Word) (currentEsp : Word) :
    Phase i (now + 1) (s.act image (.timer virtToPhys currentEsp (now + 1))) (r - 1) := by
  have hcurrent := @act_current image s (.timer virtToPhys currentEsp (now + 1)) h.current
    (fun hcall => by cases hcall)
  have hpending := @pending_timer image s virtToPhys currentEsp (now + 1) i h.current
  cases h with
  | awake _ hstate =>
    rw [hstate, if_neg fun hsleeps => by cases hsleeps.1] at hpending
    exact .awake hcurrent ((Prod.mk.inj hpending).1.trans hstate)
  | @asleep r _ hstate hwake hr hon =>
    have hfirst : (s.tasks i).wakeTick ≤ now + 1 ↔ r = 0 := by
      rcases hon with hsum | rfl <;> bv_omega
    cases r with
    | zero =>
      rw [if_pos ⟨hstate, hfirst.mpr rfl⟩] at hpending
      exact .awake hcurrent (Prod.mk.inj hpending).1
    | succ r =>
      rw [if_neg fun hwoken => absurd (hfirst.mp hwoken.2) (Nat.succ_ne_zero r)] at hpending
      obtain ⟨hstate', hwake'⟩ := Prod.mk.inj hpending
      refine .asleep hcurrent (hstate'.trans hstate) ?_ (by omega) ?_
      · bv_omega
      · refine Or.inl ?_
        rcases hon with hsum | rfl <;> bv_omega

theorem Phase.run (h : Phase i now s r) (hawaits : Awaits image i now s actions) :
    Phase i (now + BitVec.ofNat 32 (timers actions)) (s.run image actions) (r - timers actions) := by
  induction actions generalizing s now r with
  | nil =>
    rw [show now + BitVec.ofNat 32 (timers []) = now from BitVec.add_zero now]
    exact h
  | cons a actions ih =>
    obtain ⟨hpermits, hi, htick, hrest⟩ := hawaits
    cases ha : a.isTimer with
    | false =>
      have hnone : a.tickCount = none := by cases a <;> first | rfl | cases ha
      rw [hnone] at hrest
      have hcount : timers (a :: actions) = timers actions :=
        List.countP_cons_of_neg (by rw [ha]; decide)
      rw [hcount]
      refine ih (h.call hpermits ha fun hcur => ?_) hrest
      exact (hi hcur).resolve_left (by rw [ha]; decide)
    | true =>
      have hcount : timers (a :: actions) = timers actions + 1 := List.countP_cons_of_pos ha
      cases a with
      | timer virtToPhys currentEsp tickCount =>
        obtain rfl : tickCount = now + 1 := htick _ rfl
        have hnext := ih (h.timer virtToPhys currentEsp) hrest
        have hnow : now + BitVec.ofNat 32 (timers actions + 1) =
            now + 1 + BitVec.ofNat 32 (timers actions) := by
          rw [Nat.add_comm, BitVec.ofNat_add, BitVec.add_assoc]
          rfl
        rw [hcount, hnow, Nat.add_comm, Nat.sub_add_eq]
        exact hnext
      | _ => cases ha

-- The comparison in `is_current_sleeping` is right as long as the wake tick has not wrapped.
theorem Phase.isCurrentSleeping (h : Phase i now s r) (hi : s.currentTask = i)
    (hsum : now.toNat + r < 2 ^ 32) : s.isCurrentSleeping now = decide (0 < r) := by
  have hptr : s.currentTaskPtr = some i := by rw [currentTaskPtr, if_neg h.current, hi]
  rw [Sched.isCurrentSleeping, hptr]
  cases h with
  | awake _ hstate => simp [hstate]
  | asleep _ hstate hwake hr hon =>
    have hlt : now < (s.tasks i).wakeTick := by
      bv_omega
    simp [hstate, hlt]

end Phases

section Durations

variable {ticks : Word} (h : (s.tasks s.currentTask).state ≠ .unused) (hticks : ticks ≠ 0)

include h hticks

theorem sleepCurrent_spec :
    ((s.sleepCurrent ticks now).tasks s.currentTask).state = .sleeping ∧
      ((s.sleepCurrent ticks now).tasks s.currentTask).wakeTick = now + ticks := by
  rw [sleepCurrent, if_neg hticks, currentTaskPtr, if_neg h]
  simp

theorem sleepCurrent_current :
    ((s.sleepCurrent ticks now).tasks (s.sleepCurrent ticks now).currentTask).state ≠ .unused := by
  grind [sleepCurrent_currentTask, sleepCurrent_spec]

theorem sleepCurrent_phase (hon : OnTime now ticks.toNat) :
    Phase s.currentTask now (s.sleepCurrent ticks now) ticks.toNat := by
  obtain ⟨r, hr⟩ : ∃ r, ticks.toNat = r + 1 :=
    Nat.exists_eq_succ_of_ne_zero fun hzero => hticks (BitVec.eq_of_toNat_eq hzero)
  have hofNat : BitVec.ofNat 32 (r + 1) = ticks := by grind
  obtain ⟨hstate, hwake⟩ := @sleepCurrent_spec s now ticks h hticks
  rw [hr] at hon ⊢
  refine .asleep (sleepCurrent_current h hticks) hstate ?_ (hr ▸ ticks.isLt) hon
  rw [hofNat, hwake]

theorem first_tick_wakes (image : Image) (hon : ¬OnTime now ticks.toNat) (virtToPhys : Word → Word)
    (currentEsp : Word) :
    (((s.sleepCurrent ticks now).act image (.timer virtToPhys currentEsp (now + 1))).tasks
      s.currentTask).state = .runnable := by
  obtain ⟨hwraps, hlast⟩ := not_or.mp hon
  have hle : now + ticks ≤ now + 1 := by bv_omega
  obtain ⟨hstate, hwake⟩ := @sleepCurrent_spec s now ticks h hticks
  have hpending := @pending_timer image _ virtToPhys currentEsp (now + 1) s.currentTask
    (@sleepCurrent_current s now ticks h hticks)
  rw [hstate, hwake, if_pos ⟨rfl, hle⟩] at hpending
  exact (Prod.mk.inj hpending).1

theorem wakesAfter_iff (image : Image) : WakesAfter image s now ticks ↔ OnTime now ticks.toNat := by
  constructor
  · intro hwakes
    by_contra hon
    have hawaits : Awaits image s.currentTask now (s.sleepCurrent ticks now)
        [.timer id 0 (now + 1)] := by
      refine ⟨?_, fun _ => .inl rfl, ?_, trivial⟩
      · intro hcall
        cases hcall
      · intro tick htick
        exact (Option.some.inj htick).symm
    have hfirst := hwakes _ hawaits
    obtain ⟨hwraps, hlast⟩ := not_or.mp hon
    have hlong : timers [.timer id 0 (now + 1)] < ticks.toNat := by
      change 1 < ticks.toNat
      bv_omega
    rw [if_pos hlong] at hfirst
    cases hfirst.symm.trans (first_tick_wakes h hticks image hon id 0)
  · intro hon actions hawaits
    have hphase := ((sleepCurrent_phase h hticks hon).run hawaits).state_eq
    rw [hphase]
    simp only [Nat.sub_pos_iff_lt]

theorem seenAsleep_of_sum (image : Image) (hsum : now.toNat + ticks.toNat < 2 ^ 32) :
    SeenAsleep image s now ticks := by
  intro actions hawaits hcurrent
  have hphase := (sleepCurrent_phase h hticks (.inl hsum)).run hawaits
  by_cases hmore : timers actions < ticks.toNat
  · have hleft : (now + BitVec.ofNat 32 (timers actions)).toNat +
        (ticks.toNat - timers actions) < 2 ^ 32 := by
      rw [BitVec.toNat_add, BitVec.toNat_ofNat]
      omega
    rw [hphase.isCurrentSleeping hcurrent hleft]
    simp only [Nat.sub_pos_iff_lt]
  · rw [Nat.sub_eq_zero_of_le (not_lt.mp hmore)] at hphase
    rw [hphase.isCurrentSleeping hcurrent (BitVec.isLt _), decide_eq_false hmore]
    rfl

theorem sum_of_seenAsleep (hseen : SeenAsleep image s now ticks) :
    now.toNat + ticks.toNat < 2 ^ 32 := by
  have hfirst := hseen [] trivial (sleepCurrent_currentTask s ticks now)
  have hpos : timers [] < ticks.toNat :=
    Nat.pos_of_ne_zero fun hzero => hticks (BitVec.eq_of_toNat_eq hzero)
  obtain ⟨hstate, hwake⟩ := @sleepCurrent_spec s now ticks h hticks
  have hptr : (s.sleepCurrent ticks now).currentTaskPtr = some s.currentTask := by
    rw [currentTaskPtr, if_neg (sleepCurrent_current h hticks), sleepCurrent_currentTask]
  change (s.sleepCurrent ticks now).isCurrentSleeping (now + 0) = _ at hfirst
  rw [decide_eq_true hpos, Sched.isCurrentSleeping, hptr] at hfirst
  dsimp only at hfirst
  rw [hstate, hwake] at hfirst
  have hlt : now + 0 < now + ticks := by simpa using hfirst
  bv_omega

end Durations

-- A task sleeps for as many ticks as it asks for, and sees that it does, exactly when its wake tick
-- does not wrap. Only from the last value of the counter is it woken in time even so.
theorem sleep_duration_iff (image : Image) {s : Sched}
    (h : (s.tasks s.currentTask).state ≠ .unused) (now : Word) {ticks : Word} (hticks : ticks ≠ 0) :
    (WakesAfter image s now ticks ↔ now.toNat + ticks.toNat < 2 ^ 32 ∨ now = -1) ∧
    (WakesAfter image s now ticks ∧ SeenAsleep image s now ticks ↔
      now.toNat + ticks.toNat < 2 ^ 32) := by
  refine ⟨wakesAfter_iff h hticks image, ?_, ?_⟩
  · rintro ⟨-, hseen⟩
    exact sum_of_seenAsleep h hticks hseen
  · intro hsum
    exact ⟨(wakesAfter_iff h hticks image).mpr (.inl hsum), seenAsleep_of_sum h hticks image hsum⟩

theorem sleep_duration_booted : WakesAfter Trace.loadedImage Trace.booted.sched 100 20 ∧
    SeenAsleep Trace.loadedImage Trace.booted.sched 100 20 :=
  (sleep_duration_iff Trace.loadedImage (by decide +kernel) 100 (by decide)).2.mpr (by decide)

-- A sleep across the wrap ends at the first tick, and the task sees none of it.
theorem sleep_cut_short :
    ((((Trace.booted.sched.sleepCurrent 0x20 0xFFFFFFF0).act Trace.loadedImage
      (.timer id 0x002FFF00 0xFFFFFFF1)).tasks 0).state = .runnable) ∧
    (Trace.booted.sched.sleepCurrent 0x20 0xFFFFFFF0).isCurrentSleeping 0xFFFFFFF0 = false ∧
    ¬(WakesAfter Trace.loadedImage Trace.booted.sched 0xFFFFFFF0 0x20 ∧
      SeenAsleep Trace.loadedImage Trace.booted.sched 0xFFFFFFF0 0x20) := by
  refine ⟨by decide +kernel, by decide +kernel, ?_⟩
  rintro ⟨-, hseen⟩
  exact absurd (sum_of_seenAsleep (by decide +kernel) (by decide) hseen) (by decide)

-- Once awake, the task stays so.
theorem Phase.stays (h : Phase i now s 0) (hawaits : Awaits image i now s actions) :
    Schedule image s actions ∧ StaysRunnable image i s actions := by
  induction actions generalizing s now with
  | nil => exact ⟨trivial, trivial⟩
  | cons a actions ih =>
    obtain ⟨hpermits, hi, htick, hrest⟩ := hawaits
    have hnext := @Phase.run image s [a] i now 0 h ⟨hpermits, hi, htick, trivial⟩
    rw [Nat.zero_sub] at hnext
    cases hnext with
    | awake hcurrent hstate =>
      obtain ⟨hschedule, hstays⟩ := ih (.awake hcurrent hstate) hrest
      exact ⟨⟨hpermits, hschedule⟩, h.state_eq, hstays⟩

-- After the ticks it asked for, a task that sleeps has its turn within 16 quanta.
theorem sleeper_dispatched (image : Image) {s : Sched}
    (h : (s.tasks s.currentTask).state ≠ .unused) {now ticks : Word} (hticks : ticks ≠ 0)
    (hon : OnTime now ticks.toNat) {before actions : List Action}
    (hbefore : Awaits image s.currentTask now (s.sleepCurrent ticks now) before)
    (hwoken : ticks.toNat ≤ timers before)
    (hactions : Awaits image s.currentTask (now + BitVec.ofNat 32 (timers before))
      ((s.sleepCurrent ticks now).run image before) actions)
    (hquanta : 16 ≤ quanta actions) :
    s.currentTask ∈ dispatches image ((s.sleepCurrent ticks now).run image before) actions := by
  have hphase := (sleepCurrent_phase h hticks hon).run hbefore
  rw [Nat.sub_eq_zero_of_le hwoken] at hphase
  obtain ⟨hschedule, hstays⟩ := hphase.stays hactions
  exact dispatched_of_ahead hphase.current hschedule hstays ((ahead_lt _ _).trans_le hquanta)

def ticksFrom (now : Word) : Nat → List Action
  | 0 => []
  | n + 1 => .timer id 0x002FFF00 (now + 1) :: ticksFrom (now + 1) n

theorem awaits_ticksFrom (n : Nat) : Awaits image i now s (ticksFrom now n) := by
  induction n generalizing s now with
  | zero => trivial
  | succ n ih =>
    refine ⟨fun hcall => ?_, fun _ => .inl rfl, fun tick htick => ?_, ih⟩
    · cases hcall
    · exact (Option.some.inj htick).symm

theorem sleeper_dispatched_booted :
    0 ∈ dispatches Trace.loadedImage ((Trace.booted.sched.sleepCurrent 20 100).run Trace.loadedImage
      (ticksFrom 100 20)) (ticksFrom 120 160) :=
  sleeper_dispatched Trace.loadedImage (by decide +kernel) (by decide) (.inl (by decide))
    (awaits_ticksFrom 20) (by decide +kernel) (awaits_ticksFrom 160) (by decide +kernel)

end Sched

end Wirth.Kernel.Scheduler

import Wirth.Kernel.Task.Calls
import Wirth.Kernel.Task.Tables

namespace Wirth.Kernel.Scheduler

open Wirth.Lib Wirth.Lib.X86

-- The stack of a task that has not run yet. The frame of a kernel task is there, that of a task
-- in ring 3 is still to be built.
inductive Waiting (image : Image) (memory : Word → Word) (b : Block) (x : Task) : Prop
  | kernel (hring : x.ring = 0) (hesp : x.savedEsp = BitVec.ofNat 32 b.stop - 44)
      (hframe : X86.Holds memory (BitVec.ofNat 32 b.stop - 44)
        (setupInitialTaskStackWords image).reverse) : Waiting image memory b x
  | user (hring : x.ring = 3) (hesp : x.savedEsp = BitVec.ofNat 32 b.stop)
      (hstarted : x.userStarted = false) : Waiting image memory b x

def Stands (b : Block) : Prop :=
  Trace.kHeapStart ≤ b.start ∧ b.stop ≤ Trace.kHeapLimit ∧ 4096 ≤ b.size

section Frames

variable {image : Image} {memory memory' : Word → Word} {b : Block} {x y : Task}

theorem Waiting.esp_ne (h : Waiting image memory b x) (hb : Stands b) : x.savedEsp ≠ 0 := by
  obtain ⟨hlo, hhi, -⟩ := hb
  simp only [Trace.kHeapStart, Trace.kHeapLimit, Block.stop] at hlo hhi
  cases h with
  | kernel hring hesp =>
    rw [hesp, Block.stop]
    bv_omega
  | user hring hesp =>
    rw [hesp, Block.stop]
    bv_omega

theorem Waiting.congr (h : Waiting image memory b x) (hb : Stands b)
    (hmemory : ∀ a : Word, b.Holds a.toNat → memory' a = memory a)
    (hesp : y.savedEsp = x.savedEsp) (hstarted : y.userStarted = x.userStarted)
    (hring : y.ring = x.ring) : Waiting image memory' b y := by
  obtain ⟨hlo, hhi, hsize⟩ := hb
  simp only [Trace.kHeapStart, Trace.kHeapLimit, Block.stop] at hlo hhi
  cases h with
  | kernel hr he hframe =>
    refine .kernel (hring.trans hr) (hesp.trans he) (hframe.congr ?_)
    intro k hk
    have hk : k < 11 := hk
    grind [Block.Holds, Block.stop]
  | user hr he hs => exact .user (hring.trans hr) (hesp.trans he) (hstarted.trans hs)

theorem NewTask.waiting {s : Sched} (h : NewTask image s b x memory) (hstarted : x.userStarted = false) :
    Waiting image memory b x := by
  cases h with
  | kernel hring hesp =>
    refine .kernel hring hesp ?_
    have hholds := @pushWords_holds s.memory (BitVec.ofNat 32 b.stop)
      (setupInitialTaskStackWords image) [] trivial (by simp [setupInitialTaskStackWords])
    rw [pushWords_snd, List.append_nil] at hholds
    exact hholds
  | user hring hesp htop => exact .user hring hesp hstarted

theorem NewTask.outside {s : Sched} (h : NewTask image s b x memory) (hb : Stands b) {a : Word}
    (ha : ¬b.Holds a.toNat) : memory a = s.memory a := by
  obtain ⟨-, hhi, hsize⟩ := hb
  simp only [Trace.kHeapLimit] at hhi
  cases h with
  | kernel hring hesp =>
    apply pushWords_outside _ (by omega) ha
    change 44 ≤ b.size
    omega
  | user hring hesp htop => rfl

end Frames

namespace Trace

variable {image : Image} {t : Trace} {a : Action}

-- Which tasks have started, and the stacks of those that have not.
structure Begun (image : Image) (t : Trace) : Prop where
  current : (t.sched.tasks t.sched.currentTask).state ≠ .unused
  ran : t.ran t.sched.currentTask = true
  started : ∀ i, i = t.sched.currentTask ∨ (t.sched.tasks i).live = true → t.ran i = true →
    (t.sched.tasks i).ring = 3 → (t.sched.tasks i).userStarted = true
  stands : ∀ b ∈ t.blocks, Stands b
  waiting : ∀ i, (t.sched.tasks i).live = true → t.ran i = false → t.stackOf i ∈ t.blocks ∧
    Waiting image t.sched.memory (t.stackOf i) (t.sched.tasks i)
  apart : ∀ i k, i ≠ k → (t.sched.tasks i).live = true → t.ran i = false →
    (t.sched.tasks k).live = true → t.ran k = false → (t.stackOf i).Apart (t.stackOf k)

theorem boot_begun (image : Image) (s : Sched) (kernelStackEsp : Word) :
    (boot image s kernelStackEsp).Begun image := by
  have hfresh : Sched.Fresh image kernelStackEsp (boot image s kernelStackEsp).sched :=
    Sched.init_fresh kernelStackEsp rfl
  have hran : ∀ i, ((boot image s kernelStackEsp).sched.tasks i).live = true →
      (boot image s kernelStackEsp).ran i ≠ false := by
    intro i hi hran
    have hne : i ≠ 0 := of_decide_eq_false hran
    rw [hfresh.tasks, Function.update_of_ne hne] at hi
    cases hi
  refine ⟨(boot_inv image s kernelStackEsp).current, ?_, ?_, nofun, ?_, ?_⟩
  · rw [hfresh.currentTask]
    rfl
  · intro i _ hi
    have h0 : i = 0 := of_decide_eq_true hi
    rw [h0, hfresh.tasks, Function.update_self]
    nofun
  · exact fun i hlive hi => absurd hi (hran i hlive)
  grind

section Calls

theorem act_ran (hcurrent : (t.sched.act image a).currentTask = t.sched.currentTask)
    (hran : t.ran t.sched.currentTask = true) {k : Fin kMaxTasks}
    (hk : t.sched.created image a ≠ some k) : (t.act image a).ran k = t.ran k := by
  simp only [Trace.act, if_neg hk, hcurrent]
  grind

theorem call_memory (hcall : Sched.Call image t.sched a) (hpermits : t.Permits a) {b : Block}
    (hb : b ∈ t.blocks) {x : Word} (hx : b.Holds x.toNat) :
    (t.sched.act image a).memory x = t.sched.memory x := by
  cases hcreated : t.sched.created image a with
  | none => rw [hcall.memory hcreated]
  | some i =>
    obtain ⟨c, hstack, hadds⟩ := hcall.new i hcreated
    obtain ⟨hlo, hhi, hapart⟩ := hpermits.grants c hstack
    exact hadds.new.outside ⟨hlo, hhi, hadds.size⟩ ((hapart b hb).symm.not_holds hx)

theorem Begun.old (h : t.Begun image) (hcall : Sched.Call image t.sched a) (hpermits : t.Permits a)
    {k : Fin kMaxTasks} (hk : t.sched.created image a ≠ some k)
    (hlive : ((t.sched.act image a).tasks k).live = true) (hran : (t.act image a).ran k = false) :
    (t.sched.tasks k).live = true ∧ t.ran k = false ∧ (t.act image a).stackOf k = t.stackOf k ∧
      t.stackOf k ∈ t.blocks ∧
      Waiting image (t.sched.act image a).memory (t.stackOf k) ((t.sched.act image a).tasks k) := by
  obtain ⟨hlive, hsame⟩ := hcall.tasks k hk hlive
  obtain ⟨hesp, hstarted, hring⟩ := Sched.resumption_eq_iff.mp hsame
  rw [act_ran hcall.currentTask h.ran hk] at hran
  obtain ⟨hmem, hwaiting⟩ := h.waiting k hlive hran
  refine ⟨hlive, hran, ?_, hmem, hwaiting.congr (h.stands _ hmem) ?_ hesp hstarted hring⟩
  · simp only [Trace.act, if_neg hk]
  grind [call_memory]

theorem Begun.call_started (h : t.Begun image) (hcall : Sched.Call image t.sched a) :
    ∀ i, i = t.sched.currentTask ∨ ((t.sched.act image a).tasks i).live = true →
      (t.act image a).ran i = true → ((t.sched.act image a).tasks i).ring = 3 →
      ((t.sched.act image a).tasks i).userStarted = true := by
  intro i hi hran
  have hk : t.sched.created image a ≠ some i := by
    intro hnew
    simp only [Trace.act, if_pos hnew] at hran
    cases hran
  rw [act_ran hcall.currentTask h.ran hk] at hran
  rcases hi with rfl | hlive
  · obtain ⟨-, hstarted, hring⟩ := Sched.resumption_eq_iff.mp hcall.running
    rw [hstarted, hring]
    exact h.started _ (.inl rfl) hran
  · obtain ⟨hlive, hsame⟩ := hcall.tasks i hk hlive
    obtain ⟨-, hstarted, hring⟩ := Sched.resumption_eq_iff.mp hsame
    rw [hstarted, hring]
    exact h.started i (.inr hlive) hran

theorem Begun.call (h : t.Begun image) (hcall : Sched.Call image t.sched a) (hpermits : t.Permits a) :
    (t.act image a).Begun image := by
  have hsched : (t.act image a).sched = t.sched.act image a := rfl
  have hcurrent := hcall.currentTask
  have hstarted := h.call_started hcall
  have hran : (t.act image a).ran t.sched.currentTask = true := by
    rw [act_ran hcurrent h.ran hcall.notNew]
    exact h.ran
  have hadded : ∀ k, t.sched.created image a = some k → ∃ b, Grants t.blocks b ∧ Stands b ∧
      (t.act image a).stackOf k = b ∧ (t.act image a).blocks = b :: t.blocks ∧
      Waiting image (t.sched.act image a).memory b ((t.sched.act image a).tasks k) := by
    intro k hk
    obtain ⟨b, hstack, hadds⟩ := hcall.new k hk
    have hgrants := hpermits.grants b hstack
    refine ⟨b, hgrants, ⟨hgrants.1, hgrants.2.1, hadds.size⟩, ?_, ?_, hadds.new.waiting hadds.notStarted⟩
    · simp only [Trace.act, if_pos hk, hstack]
      rfl
    · simp only [Trace.act, hk, hstack]
      rfl
  have hblocks : ∀ b ∈ (t.act image a).blocks, b ∈ t.blocks ∨
      ∃ k, t.sched.created image a = some k ∧ (t.act image a).stackOf k = b := by
    cases hcreated : t.sched.created image a with
    | none =>
      grind [Trace.act]
    | some k =>
      grind
  have hkept : ∀ b ∈ t.blocks, b ∈ (t.act image a).blocks := by
    intro b hb
    simp only [Trace.act]
    split_ifs
    · exact List.mem_append_right _ hb
    · exact hb
  refine ⟨?_, ?_, ?_, ?_, ?_, ?_⟩
  · rw [hsched, hcurrent]
    exact hcall.current
  · rw [hsched, hcurrent]
    exact hran
  · rw [hsched, hcurrent]
    exact hstarted
  · intro b hb
    rcases hblocks b hb with hold | ⟨k, hk, rfl⟩
    · exact h.stands b hold
    grind
  · intro k hlive hk
    by_cases hnew : t.sched.created image a = some k
    · grind
    · obtain ⟨-, -, hstack, hmem, hwaiting⟩ := h.old hcall hpermits hnew hlive hk
      grind
  · intro i k hne hilive hi hklive hk
    by_cases hinew : t.sched.created image a = some i
    · have hkold : t.sched.created image a ≠ some k := by
        rw [hinew]
        exact fun heq => hne (Option.some.inj heq)
      obtain ⟨b, hgrants, -, histack, -⟩ := hadded i hinew
      obtain ⟨-, -, hkstack, hmem, -⟩ := h.old hcall hpermits hkold hklive hk
      rw [histack, hkstack]
      exact hgrants.2.2 _ hmem
    · obtain ⟨hilive, hi, histack, hmem, -⟩ := h.old hcall hpermits hinew hilive hi
      rw [histack]
      by_cases hknew : t.sched.created image a = some k
      · obtain ⟨b, hgrants, -, hkstack, -⟩ := hadded k hknew
        rw [hkstack]
        exact (hgrants.2.2 _ hmem).symm
      · obtain ⟨hklive, hk, hkstack, -⟩ := h.old hcall hpermits hknew hklive hk
        rw [hkstack]
        exact h.apart i k hne hilive hi hklive hk

end Calls

section Ticks

variable {virtToPhys : Word → Word} {currentEsp tickCount : Word} {next : Fin kMaxTasks}

structure Ticked (image : Image) (t : Trace) (virtToPhys : Word → Word) (currentEsp tickCount : Word)
    (next : Fin kMaxTasks) : Prop where
  tick : t.sched.Tick currentEsp next (t.sched.onTimerInterrupt virtToPhys currentEsp tickCount)
  steady : t.sched.Steady (t.sched.onTimerInterrupt virtToPhys currentEsp tickCount).2
  blocks : (t.act image (.timer virtToPhys currentEsp tickCount)).blocks = t.blocks
  stackOf : (t.act image (.timer virtToPhys currentEsp tickCount)).stackOf = t.stackOf
  lastEsp : ∀ k, (t.act image (.timer virtToPhys currentEsp tickCount)).lastEsp k =
    if k = t.sched.currentTask then some currentEsp else t.lastEsp k
  ran : ∀ k, (t.act image (.timer virtToPhys currentEsp tickCount)).ran k = (t.ran k || k = next)

theorem timer_ticked (image : Image) (virtToPhys : Word → Word) (currentEsp tickCount : Word)
    (h : (t.sched.tasks t.sched.currentTask).state ≠ .unused) :
    ∃ next, Ticked image t virtToPhys currentEsp tickCount next := by
  obtain ⟨next, htick⟩ := Sched.onTimerInterrupt_tick virtToPhys currentEsp tickCount h
  have hsteady := Sched.steady_timer t.sched virtToPhys currentEsp tickCount
  have hnone : t.sched.created image (.timer virtToPhys currentEsp tickCount) = none :=
    Sched.created_none hsteady.nextTid
  refine ⟨next, htick, hsteady, ?_, ?_, ?_, ?_⟩
  · simp only [Trace.act, hnone]
    rfl
  · simp only [Trace.act, hnone]
    rfl
  · intro k
    simp only [Trace.act, hnone]
    rfl
  · intro k
    rw [← htick.current]
    simp only [Trace.act, hnone]
    rfl

theorem Begun.tick_memory (h : t.Begun image)
    (htick : Ticked image t virtToPhys currentEsp tickCount next) {k : Fin kMaxTasks} (hk : k ≠ next)
    (hlive : (t.sched.tasks k).live = true) (hran : t.ran k = false) {x : Word}
    (hx : (t.stackOf k).Holds x.toNat) :
    (t.sched.onTimerInterrupt virtToPhys currentEsp tickCount).2.memory x = t.sched.memory x := by
  cases htick.tick.outcome with
  | goesOn hesp hmemory => rw [hmemory]
  | stuck hother hzero hmemory => rw [hmemory]
  | starts hne hring hstarted hesp hmemory =>
    have hnot : t.ran next = false := by
      cases hr : t.ran next with
      | false => rfl
      | true =>
        rw [h.started next htick.tick.chosen hr hring] at hstarted
        cases hstarted
    have hother : next ≠ t.sched.currentTask := by
      rintro rfl
      rw [h.ran] at hnot
      cases hnot
    have hnext := htick.tick.chosen.resolve_left hother
    obtain ⟨hmem, hwaiting⟩ := h.waiting next hnext hnot
    obtain ⟨-, hhi, hsize⟩ := h.stands _ hmem
    simp only [kHeapLimit] at hhi
    cases hwaiting with
    | kernel hring0 =>
      rw [hring0] at hring
      cases hring
    | user hring3 hsaved =>
      rw [hmemory, Sched.espAt, if_neg hother, hsaved]
      apply pushWords_outside _ (by omega) _
      · change 52 ≤ (t.stackOf next).size
        omega
      · exact (h.apart k next hk hlive hran hnext hnot).not_holds hx

theorem Begun.tick_started (h : t.Begun image)
    (htick : Ticked image t virtToPhys currentEsp tickCount next)
    (hring : (t.sched.tasks next).ring = 3) :
    ((t.sched.onTimerInterrupt virtToPhys currentEsp tickCount).2.tasks next).userStarted = true := by
  cases htick.tick.outcome with
  | goesOn hesp hmemory hsame hstarted =>
    rw [hsame]
    by_cases hcur : next = t.sched.currentTask
    · apply h.started next (.inl hcur) _ hring
      rw [hcur]
      exact h.ran
    · exact hstarted hcur hring
  | starts hne hring hstarted hesp hmemory hstarts => exact hstarts
  | stuck hother hzero hmemory hsame =>
    rw [hsame]
    have hlive := htick.tick.chosen.resolve_left hother
    cases hran : t.ran next with
    | true => exact h.started next (.inr hlive) hran hring
    | false =>
      obtain ⟨hmem, hwaiting⟩ := h.waiting next hlive hran
      exact absurd hzero (hwaiting.esp_ne (h.stands _ hmem))

theorem Begun.tick (h : t.Begun image) (htick : Ticked image t virtToPhys currentEsp tickCount next) :
    (t.act image (.timer virtToPhys currentEsp tickCount)).Begun image := by
  have hsched : (t.act image (.timer virtToPhys currentEsp tickCount)).sched =
    (t.sched.onTimerInterrupt virtToPhys currentEsp tickCount).2 := rfl
  have hlive : ∀ k, ((t.sched.onTimerInterrupt virtToPhys currentEsp tickCount).2.tasks k).live =
    (t.sched.tasks k).live := fun k => Task.live_of_core (htick.steady.tasks k)
  have hold : ∀ {k}, (t.act image (.timer virtToPhys currentEsp tickCount)).ran k = false →
      t.ran k = false ∧ k ≠ next := by
    intro k hk
    rw [htick.ran, Bool.or_eq_false_iff] at hk
    exact ⟨hk.1, of_decide_eq_false hk.2⟩
  refine ⟨?_, ?_, ?_, ?_, ?_, ?_⟩
  · exact Sched.timer_current virtToPhys currentEsp tickCount h.current
  · rw [hsched, htick.tick.current, htick.ran]
    simp
  · intro i hi hran
    rw [hsched, htick.tick.current, hlive] at hi
    rw [htick.ran] at hran
    have hring := (Task.user_of_core (htick.steady.tasks i)).2.2
    rw [hsched, hring]
    by_cases hnext : i = next
    · rw [hnext]
      exact h.tick_started htick
    · obtain ⟨-, hstarted, -⟩ := Sched.resumption_eq_iff.mp (htick.tick.others i hnext)
      rw [hstarted]
      rw [decide_eq_false hnext, Bool.or_false] at hran
      exact h.started i (.inr (hi.resolve_left hnext)) hran
  · rw [htick.blocks]
    exact h.stands
  · intro k hk hran
    rw [hsched, hlive] at hk
    obtain ⟨hran, hne⟩ := hold hran
    obtain ⟨hmem, hwaiting⟩ := h.waiting k hk hran
    obtain ⟨hesp, hstarted, hring⟩ := Sched.resumption_eq_iff.mp (htick.tick.others k hne)
    have hother : k ≠ t.sched.currentTask := by
      rintro rfl
      rw [h.ran] at hran
      cases hran
    rw [Sched.espAt, if_neg hother] at hesp
    rw [htick.stackOf, htick.blocks]
    refine ⟨hmem, hwaiting.congr (h.stands _ hmem) ?_ hesp hstarted hring⟩
    exact fun x hx => h.tick_memory htick hne hk hran hx
  · intro i k hne hilive hi hklive hk
    rw [hsched, hlive] at hilive hklive
    rw [htick.stackOf]
    exact h.apart i k hne hilive (hold hi).1 hklive (hold hk).1

end Ticks

theorem Begun.act (h : t.Begun image) (hpermits : t.Permits a) : (t.act image a).Begun image := by
  cases ha : a.isTimer with
  | false => exact h.call (Sched.call image ha (Task.live_of_ne h.current (hpermits.running ha))) hpermits
  | true =>
    cases a with
    | timer virtToPhys currentEsp tickCount =>
      obtain ⟨next, htick⟩ := timer_ticked image virtToPhys currentEsp tickCount h.current
      exact h.tick htick
    | _ => cases ha

theorem Run.begun {allowed : Trace → Action → Prop} (h : Run image allowed t) : t.Begun image := by
  induction h with
  | boot s kernelStackEsp => exact boot_begun image s kernelStackEsp
  | act ht hpermits hallowed ih => exact ih.act hpermits

end Trace

end Wirth.Kernel.Scheduler

import Wirth.Kernel.Task.Recycling
import Wirth.Kernel.Task.Switching

namespace Wirth.Kernel.Scheduler

open Wirth.Lib Wirth.Lib.X86

namespace Sched

variable {image : Image} {s s' : Sched} {a : Action}

structure Intact (s s' : Sched) : Prop where
  tasks : ∀ i, (s.tasks i).live = true ∨ (s'.tasks i).live = true → s'.tasks i = s.tasks i
  processes : ∀ j, (s.processes j).used = true ∨ (s'.processes j).used = true →
    s'.processes j = s.processes j
  processCount : s'.processCount = s.processCount
  threadCount : s'.threadCount = s.threadCount

theorem Unspoiled.intact (h : Unspoiled s s') : Intact s s' where
  tasks := by
    intro i hi
    apply h.tasks i
    by_contra hdead
    have hdead' := h.dead i (Bool.eq_false_iff.mpr hdead)
    grind
  processes := by
    intro j hj
    apply h.processes j
    by_contra hfree
    have hfree' := h.free j (Bool.eq_false_iff.mpr hfree)
    grind
  processCount := h.processCount
  threadCount := h.threadCount

def AtomicFailure (image : Image) (s : Sched) (a : Action) : Prop :=
  s.outcome image a = -1 → Intact s (s.act image a)

-- A process is entered under a number that stands for a failure, or that the search for the
-- process to give up finds at an earlier slot.
def Misnumbered (s : Sched) (a : Action) : Prop :=
  ∃ j, firstSlot (fun p => !p.used) s.processes = some j ∧ a.clone ≠ 0 ∧
    (s.nextPid = 0 ∨ s.nextPid = -1 ∧ s.GetsTask a ∨
      ¬s.GetsTask a ∧ ∃ k < j, (s.processes k).used = true ∧ (s.processes k).pid = s.nextPid)

section Attempts

theorem Opens.found_iff {j k : Fin kMaxProcesses} {p : Process} (h : s.Opens j p)
    (hfind : (s.opened j p).findProcess s.nextPid = some k) :
    k ≠ j ↔ ∃ l < j, (s.processes l).used = true ∧ (s.processes l).pid = s.nextPid := by
  have hself : (s.opened j p).processes j = p := Function.update_self ..
  have hother : ∀ l, l ≠ j → (s.opened j p).processes l = s.processes l :=
    fun l hl => Function.update_of_ne hl ..
  constructor
  · intro hkj
    have hlt : k < j := by
      by_contra hnot
      have hbefore := firstSlot_first hfind (lt_of_le_of_ne (not_lt.mp hnot) hkj.symm)
      simp [hself, h.used, h.pid] at hbefore
    grind [findProcess_eq_some]
  · rintro ⟨l, hl, hl', hnumber⟩ rfl
    have hbefore := firstSlot_first hfind hl
    simp [hother l hl.ne, hl', hnumber] at hbefore

end Attempts

-- The number of processes is that of the slots in use, also when two have the same number.
structure Counted (s : Sched) : Prop where
  count : s.processCount.toNat = countSlots Process.used s.processes
  pos : 0 < countSlots Process.used s.processes

section Counted

theorem Counted.le (h : s.Counted) : s.processCount.toNat ≤ 8 := by
  rw [h.count]
  exact countSlots_le Process.used s.processes

theorem Counted.ne_zero (h : s.Counted) : s.processCount ≠ 0 := by
  intro hzero
  have hcount := h.count
  rw [hzero] at hcount
  exact absurd h.pos (by rw [← hcount]; decide)

theorem Counted.congr (h : s.Counted) (hused : ∀ j, (s'.processes j).used = (s.processes j).used)
    (hcount : s'.processCount = s.processCount) : s'.Counted := by
  have hslots := countSlots_congr (p := Process.used) (q := Process.used) hused
  refine ⟨?_, ?_⟩
  · rw [hcount, hslots, h.count]
  · rw [hslots]
    exact h.pos

theorem Unspoiled.used (h : Unspoiled s s') (j : Fin kMaxProcesses) :
    (s'.processes j).used = (s.processes j).used := by
  cases hj : (s.processes j).used with
  | true => rw [h.processes j hj, hj]
  | false => exact h.free j hj

theorem Counted.opened (h : s.Counted) {j : Fin kMaxProcesses} {p : Process}
    (hj : (s.processes j).used = false) (hused : p.used = true) :
    (s.opened j p).processCount.toNat = countSlots Process.used (s.opened j p).processes ∧
      2 ≤ countSlots Process.used (s.opened j p).processes := by
  have hslots : countSlots Process.used (s.opened j p).processes =
      countSlots Process.used s.processes + 1 := countSlots_fill hj hused
  have hle := h.le
  have hsum : (s.opened j p).processCount.toNat = s.processCount.toNat + 1 := by
    change (s.processCount + 1).toNat = _
    bv_omega
  have hpos := h.pos
  rw [hsum, hslots, h.count]
  exact ⟨rfl, Nat.succ_le_succ hpos⟩

theorem processes_dropProcess (s : Sched) (k : Fin kMaxProcesses) :
    (s.dropProcess k).processes = Function.update s.processes k .cleared := by
  unfold dropProcess
  dsimp only
  split_ifs <;> rfl

theorem processCount_dropProcess (s : Sched) (k : Fin kMaxProcesses) (h : 0 < s.processCount) :
    (s.dropProcess k).processCount = s.processCount - 1 := by
  have hpos : 0 < (s.setProcess k .cleared).processCount := h
  simp only [dropProcess, hpos, if_true]
  rfl

theorem Counted.spawned (h : s.Counted) (i : Fin kMaxTasks) (k : Fin kMaxProcesses) (x : Task) (m : Word → Word) :
    (s.spawned i k x m).Counted := by
  refine h.congr (fun l => ?_) rfl
  have hslots := congrFun (Prod.mk.inj (registry_spawned s i k x m)).1 l
  exact (Prod.mk.inj hslots).1

theorem Attempt.counted {r : Word} (hs : s.Counted) (htid : s.nextTid.slt 0 = false)
    (h : Attempt image s a r s') : s'.Counted := by
  cases h with
  | refused hroom h => exact hs.congr h.used h.processCount
  | kernel _ _ _ _ => exact hs.spawned ..
  | miscounted _ hmany _ _ => cases htid.symm.trans hmany
  | unnumbered hopens _ _ =>
    obtain ⟨hcount, htwo⟩ := hs.opened hopens.free hopens.used
    exact ⟨hcount, Nat.lt_of_succ_lt htwo⟩
  | @givenUp j k p u hopens _ _ hfind htask hu =>
    obtain ⟨hcount, htwo⟩ := hs.opened hopens.free hopens.used
    have hslots : u.processes = (s.opened j p).processes ∧
        u.processCount = (s.opened j p).processCount := by
      rcases hu with rfl | ⟨i, _, rfl⟩ <;> exact ⟨rfl, rfl⟩
    have hpos : 0 < u.processCount := by
      bv_omega
    have hclear : countSlots Process.used (u.dropProcess k).processes =
        countSlots Process.used (s.opened j p).processes - 1 := by
      rw [processes_dropProcess, hslots.1]
      exact countSlots_clear (findProcess_eq_some hfind).1 rfl
    refine ⟨?_, by omega⟩
    rw [processCount_dropProcess u k hpos, hslots.2, hclear, ← hcount]
    bv_omega
  | made hopens _ _ _ _ _ =>
    obtain ⟨hcount, htwo⟩ := hs.opened hopens.free hopens.used
    exact Counted.spawned ⟨hcount, Nat.lt_of_succ_lt htwo⟩ ..

theorem processCount_act (image : Image) (s : Sched) (ha : a.isCreation = false) :
    (s.act image a).processCount = s.processCount := by
  cases a with
  | createKernelTask | createProcessTask | createRing3Task => cases ha
  | sleepCurrent ticks nowTick =>
    rw [act, sleepCurrent]
    split_ifs
    · rfl
    · cases s.currentTaskPtr <;> rfl
  | exitCurrent =>
    rw [act, exitCurrent, markCurrentExited]
    cases s.currentTaskPtr with
    | none => rfl
    | some i =>
      dsimp only
      split_ifs
      · rfl
      all_goals
        cases s.findProcess (s.tasks i).pid with
        | none => rfl
        | some j =>
          dsimp only
          split_ifs <;> rfl
  | timer virtToPhys currentEsp tickCount =>
    exact (steady_timer s virtToPhys currentEsp tickCount).processCount

theorem Counted.act (hs : s.Counted) (htid : s.nextTid.slt 0 = false) (image : Image) (a : Action) :
    (s.act image a).Counted := by
  by_cases ha : a.isCreation = true
  · exact (attempt image s ha).counted hs htid
  · have hother : a.makesProcess = false := by
      by_contra hmakes
      exact ha (isCreation_of_makesProcess (by simpa using hmakes))
    have hregistry := (Prod.mk.inj (registry_act image s hother)).1
    exact hs.congr (fun j => (Prod.mk.inj (congrFun hregistry j)).1)
      (processCount_act image s (Bool.eq_false_iff.mpr ha))

end Counted

section Atomicity

theorem Attempt.intact_iff {r : Word} (hs : s.Counted) (htid : s.nextTid.slt 0 = false)
    (h : Attempt image s a r s') : (r = -1 → Intact s s') ↔ ¬s.Misnumbered a := by
  cases h with
  | refused hroom h =>
    refine iff_of_true (fun _ => h.intact) ?_
    rintro ⟨j, hj, hclone, -⟩
    grind
  | kernel _ hclone _ _ =>
    refine iff_of_true (fun hfailed => ?_) fun ⟨_, _, hgiven, _⟩ => hgiven hclone
    rw [hfailed] at htid
    cases htid
  | miscounted _ hmany _ _ => cases htid.symm.trans hmany
  | @unnumbered j p hopens hclone hzero =>
    refine iff_of_false ?_ (not_not.mpr ⟨j, hopens.slot, hclone hs.ne_zero, .inl hzero⟩)
    intro hintact
    have hcount : s.processCount + 1 = s.processCount := (hintact rfl).processCount
    bv_omega
  | @givenUp j k p u hopens hclone hnext hfind htask hu =>
    have hj := hopens.slot
    have hmis : s.Misnumbered a ↔ k ≠ j := by
      rw [hopens.found_iff hfind]
      constructor
      · rintro ⟨j', hj', -, hzero | ⟨-, hgets⟩ | ⟨-, hbefore⟩⟩
        · exact absurd hzero hnext
        · exact absurd hgets htask
        grind
      · intro hbefore
        exact ⟨j, hj, hclone hs.ne_zero, .inr (.inr ⟨htask, hbefore⟩)⟩
    rw [hmis, not_not]
    constructor
    · intro hintact
      -- The process that is given up was in use before the call.
      by_contra hkj
      have hused' := (findProcess_eq_some hfind).1
      have hbefore : (s.opened j p).processes k = s.processes k := Function.update_of_ne hkj ..
      rw [hbefore] at hused'
      have hsame := (hintact rfl).processes k (.inl hused')
      rw [processes_dropProcess, Function.update_self] at hsame
      rw [← hsame] at hused'
      cases hused'
    · rintro rfl -
      rcases hu with rfl | ⟨i, hi, rfl⟩
      · exact (Unspoiled.drop hopens.free hs.le).intact
      · have hdead : Unspoiled (s.setTask i .cleared)
            (((s.setTask i .cleared).opened k p).dropProcess k) := Unspoiled.drop hopens.free hs.le
        exact (hdead.clear (allocTaskSlot_dead hi)).intact
  | @made i j k p b x m hopens hclone hnext _ _ hnew =>
    have htask := hnew.getsTask
    have hmis : s.Misnumbered a ↔ s.nextPid = -1 := by
      constructor
      · rintro ⟨-, -, -, hzero | ⟨hlast, -⟩ | ⟨hnot, -⟩⟩
        · exact absurd hzero hnext
        · exact hlast
        · exact absurd htask hnot
      · intro hlast
        exact ⟨j, hopens.slot, hclone hs.ne_zero, .inr (.inl ⟨hlast, htask⟩)⟩
    rw [hmis]
    constructor
    · intro hintact hlast
      have hcount : s.threadCount + 1 = s.threadCount := (hintact hlast).threadCount
      bv_omega
    grind

theorem atomicFailure_iff (image : Image) (hs : s.Counted) (htid : s.nextTid.slt 0 = false)
    (ha : a.isCreation = true) : s.AtomicFailure image a ↔ ¬s.Misnumbered a :=
  (attempt image s ha).intact_iff hs htid

theorem Numbered.not_misnumbered (hs : s.Numbered) (hlast : s.nextPid ≠ -1) (a : Action) :
    ¬s.Misnumbered a := by
  rintro ⟨j, -, -, hzero | ⟨hminus, -⟩ | ⟨-, k, -, hused, hpid⟩⟩
  · exact hs.pid_pos hzero
  · exact hlast hminus
  · exact hs.pid_fresh k hused hpid

end Atomicity

end Sched

namespace Trace

variable {image : Image} {t : Trace} {allowed : Trace → Action → Prop}

theorem Run.stacked_counted (h : Run image allowed t) : t.Stacked ∧ t.sched.Counted := by
  induction h with
  | boot s kernelStackEsp =>
    have hfresh : Sched.Fresh image kernelStackEsp (Trace.boot image s kernelStackEsp).sched :=
      Sched.init_fresh kernelStackEsp rfl
    have hused := (boot_filed image s kernelStackEsp).used
    refine ⟨boot_stacked image s kernelStackEsp, ?_, ?_⟩
    · rw [hused, hfresh.processCount]
      rfl
    · rw [hused]
      exact Nat.zero_lt_one
  | @act t a ht hpermits hallowed ih =>
    exact ⟨ih.1.act hpermits, ih.2.act ih.1.nextTid_pos image a⟩

-- A creation that fails leaves everything as it was, exactly when the number of its process is
-- neither one that stands for a failure nor one that is in use. The first numbers are not.
theorem failed_creation_iff {t : Trace} {a : Action} (h : Run image (fun _ _ => True) t)
    (ha : a.isCreation = true) :
    (t.sched.AtomicFailure image a ↔ ¬t.sched.Misnumbered a) ∧
      (t.creations + 3 < 2 ^ 32 → t.sched.AtomicFailure image a) := by
  obtain ⟨hstacked, hcounted⟩ := h.stacked_counted
  have hiff := Sched.atomicFailure_iff image hcounted hstacked.nextTid_pos ha
  refine ⟨hiff, ?_⟩
  intro hcreations
  have hinv := h.inv (by omega)
  obtain ⟨m, hm, hle, hnext, -⟩ := hinv.nextPid
  have hlast : t.sched.nextPid ≠ -1 := by
    intro hminus
    have hnat := congrArg BitVec.toNat hnext
    rw [hminus, BitVec.toNat_ofNat, Nat.mod_eq_of_lt (by omega)] at hnat
    have hall : (-1 : Word).toNat = 2 ^ 32 - 1 := rfl
    omega
  exact hiff.mpr ((hinv.numbered (by omega)).not_misnumbered hlast a)

def nullEntry : Action := .createProcessTask none 0 0 0xD0001000 0

theorem failed_creation_firstTask :
    (booted.act loadedImage firstTask).sched.outcome loadedImage nullEntry = -1 ∧
      (booted.act loadedImage firstTask).sched.Intact
        ((booted.act loadedImage firstTask).sched.act loadedImage nullEntry) :=
  have hfailed : (booted.act loadedImage firstTask).sched.outcome loadedImage nullEntry = -1 := by
    decide +kernel
  ⟨hfailed, (failed_creation_iff (firstTask_run _ trivial) rfl).2 (by decide +kernel) hfailed⟩

theorem Run.mono {allowed' : Trace → Action → Prop} (h : Run image allowed t)
    (himp : ∀ t a, allowed t a → allowed' t a) : Run image allowed' t := by
  induction h with
  | boot s kernelStackEsp => exact .boot s kernelStackEsp
  | act ht hpermits hallowed ih => exact .act ih hpermits (himp _ _ hallowed)

-- After so many processes that got no page directory, the next number is 0. The process that gets
-- it stays in the table.
theorem failed_creation_spoils : ∃ t, Run loadedImage (fun _ _ => True) t ∧
    t.sched.outcome loadedImage nullEntry = -1 ∧
    ¬t.sched.Intact (t.sched.act loadedImage nullEntry) := by
  obtain ⟨t, hrun, hblocks, hsched⟩ := refused_run (2 ^ 32 - 2)
  refine ⟨t, hrun.mono fun _ _ _ => trivial, ?_, ?_⟩
  · rw [hsched]
    decide +kernel
  · intro hintact
    have hcount := hintact.processCount
    rw [hsched] at hcount
    revert hcount
    decide +kernel

end Trace

end Wirth.Kernel.Scheduler

import Wirth.Kernel.Task.Fairness

namespace Wirth.Kernel.Scheduler

open Wirth.Lib Wirth.Lib.X86

namespace Action

def Supplied : Action → Prop
  | createKernelTask _ _ stack => stack ≠ 0
  | createProcessTask _ _ _ clone stack | createRing3Task _ _ _ clone stack => clone ≠ 0 ∧ stack ≠ 0
  | _ => True

instance : ∀ a : Action, Decidable a.Supplied
  | createKernelTask _ _ stack => inferInstanceAs (Decidable (stack ≠ 0))
  | createProcessTask _ _ _ clone stack => inferInstanceAs (Decidable (clone ≠ 0 ∧ stack ≠ 0))
  | createRing3Task _ _ _ clone stack => inferInstanceAs (Decidable (clone ≠ 0 ∧ stack ≠ 0))
  | sleepCurrent .. | exitCurrent | timer .. => isTrue trivial

end Action

namespace Sched

variable {image : Image} {s : Sched} {a : Action} {n : Nat}

def liveTasks (s : Sched) : Nat := countSlots Task.live s.tasks

def liveProcesses (s : Sched) : Nat := countSlots (fun p => p.used && 0 < p.liveThreads) s.processes

-- Which slots of the process table are taken, and under which numbers.
def registry (s : Sched) : (Fin kMaxProcesses → Bool × Word) × Word :=
  (fun j => ((s.processes j).used, (s.processes j).pid), s.nextPid)

section Registry

theorem registry_liveThreads (s : Sched) (j : Fin kMaxProcesses) (count : Word) :
    (s.setProcess j { s.processes j with liveThreads := count }).registry = s.registry := by
  have hslots : ∀ k, (s.setProcess j { s.processes j with liveThreads := count }).registry.1 k =
      s.registry.1 k := by
    intro k
    by_cases hk : k = j
    · subst hk
      simp [registry]
    · simp [registry, setProcess_of_ne _ _ hk]
  exact Prod.ext (funext hslots) rfl

theorem exitCurrent_numbers (s : Sched) :
    s.exitCurrent.registry = s.registry ∧ s.exitCurrent.nextTid = s.nextTid := by
  unfold exitCurrent markCurrentExited
  cases s.currentTaskPtr with
  | none => exact ⟨rfl, rfl⟩
  | some i =>
    dsimp only
    split_ifs
    · exact ⟨rfl, rfl⟩
    all_goals
      cases s.findProcess (s.tasks i).pid with
      | none => exact ⟨rfl, rfl⟩
      | some j =>
        dsimp only
        split_ifs
        · exact ⟨registry_liveThreads s j _, rfl⟩
        · exact ⟨rfl, rfl⟩

-- Only `create_process` writes into the table, beside the number of threads. No call gives a slot
-- back.
theorem registry_act (image : Image) (s : Sched) (ha : a.makesProcess = false) :
    (s.act image a).registry = s.registry := by
  cases a with
  | createKernelTask entry stackSize stack =>
    rw [act, createKernelTask]
    obtain ⟨u, h, rfl | ⟨i, _, rfl⟩, _⟩ | ⟨i, j, x, m, _, _, _, _, _, _, h⟩ :=
      createTaskForProcess_cases image s 1 entry stackSize stack
    · rw [h]
    · rw [h]
      rfl
    · rw [h]
      exact registry_liveThreads s j _
  | createProcessTask | createRing3Task => cases ha
  | sleepCurrent ticks nowTick =>
    rw [act, sleepCurrent]
    split_ifs
    · rfl
    · cases s.currentTaskPtr <;> rfl
  | exitCurrent => exact (exitCurrent_numbers s).1
  | timer virtToPhys currentEsp tickCount =>
    have hsteady := steady_timer s virtToPhys currentEsp tickCount
    rw [act, registry, hsteady.processes, hsteady.nextPid]
    rfl

end Registry

-- `n` processes beside the first one have been entered, under the numbers in their order.
structure Filed (n : Nat) (s : Sched) : Prop where
  used : countSlots Process.used s.processes = n + 1
  pids : ∀ j, (s.processes j).used = true → (s.processes j).pid.toNat < n + 2
  nextPid : s.nextPid = BitVec.ofNat 32 (n + 2)

section Filed

theorem Filed.le (h : Filed n s) : n ≤ 7 := by
  have hle := countSlots_le Process.used s.processes
  rw [h.used] at hle
  exact Nat.le_of_succ_le_succ hle

theorem Filed.nextPid_toNat (h : Filed n s) : s.nextPid.toNat = n + 2 := by
  have hle := h.le
  rw [h.nextPid, BitVec.toNat_ofNat, Nat.mod_eq_of_lt (by omega)]

theorem Filed.congr {s' : Sched} (h : Filed n s) (heq : s'.registry = s.registry) : Filed n s' := by
  obtain ⟨hslots, hnext⟩ := Prod.mk.inj heq
  have hslot := fun j => Prod.mk.inj (congrFun hslots j)
  refine ⟨?_, ?_, hnext.trans h.nextPid⟩
  · rw [countSlots_congr fun j => (hslot j).1, h.used]
  · intro j hj
    rw [(hslot j).1] at hj
    rw [(hslot j).2]
    exact h.pids j hj

theorem Filed.opened (h : Filed n s) {j : Fin kMaxProcesses} {p : Process}
    (hj : (s.processes j).used = false) (hused : p.used = true) (hpid : p.pid = s.nextPid) :
    Filed (n + 1) (s.opened j p) := by
  refine ⟨?_, ?_, ?_⟩
  · change countSlots Process.used (Function.update s.processes j p) = _
    rw [countSlots_fill hj hused, h.used]
  · intro k hk
    by_cases hkj : k = j
    · subst hkj
      change (Function.update s.processes k p k).pid.toNat < _
      rw [Function.update_self, hpid, h.nextPid_toNat]
      omega
    · have hsame : (s.opened j p).processes k = s.processes k := Function.update_of_ne hkj ..
      rw [hsame] at hk ⊢
      exact (h.pids k hk).trans (Nat.lt_succ_self _)
  · change s.nextPid + 1 = _
    rw [h.nextPid]
    bv_omega

theorem registry_spawned (s : Sched) (i : Fin kMaxTasks) (j : Fin kMaxProcesses) (x : Task)
    (m : Word → Word) : (s.spawned i j x m).registry = s.registry :=
  registry_liveThreads s j _

end Filed

section Creations

theorem isCreation_of_makesProcess (ha : a.makesProcess = true) : a.isCreation = true := by
  cases a <;> first | rfl | cases ha

theorem creation_room (h : Filed n s) (htid : s.nextTid.slt 0 = false) (ha : a.makesProcess = true)
    (hsupplied : a.Supplied) (hentry : a.EntryGiven) {i : Fin kMaxTasks} {j : Fin kMaxProcesses}
    (hi : s.allocTaskSlot = some i) (hj : firstSlot (fun p => !p.used) s.processes = some j) :
    s.outcome image a = s.nextPid ∧ Filed (n + 1) (s.act image a) := by
  have hgiven : a.clone ≠ 0 ∧ a.stack ≠ none := by
    cases a with
    | createProcessTask | createRing3Task => exact ⟨hsupplied.1, by simpa [Action.stack] using hsupplied.2⟩
    | _ => cases ha
  have hattempt := attempt image s (isCreation_of_makesProcess ha)
  generalize s.outcome image a = r, s.act image a = s' at hattempt ⊢
  cases hattempt with
  | refused hroom _ =>
    rcases hroom with hfull | hclone
    · cases hfull.symm.trans hj
    · exact absurd hclone hgiven.1
  | kernel hother => cases ha.symm.trans hother
  | unnumbered _ _ hzero =>
    have hnat := h.nextPid_toNat
    rw [hzero] at hnat
    cases hnat
  | givenUp _ _ _ _ htask _ => exact absurd ⟨hentry, hgiven.2, by simp [hi]⟩ htask
  | made hopens _ _ _ _ _ =>
    exact ⟨rfl, (h.opened hopens.free hopens.used hopens.pid).congr (registry_spawned ..)⟩
  | miscounted _ hmany _ _ => cases htid.symm.trans hmany

theorem creation_full (ha : a.makesProcess = true)
    (hfull : firstSlot (fun p => !p.used) s.processes = none) : s.outcome image a = -1 := by
  have hattempt := attempt image s (isCreation_of_makesProcess ha)
  generalize s.outcome image a = r, s.act image a = s' at hattempt ⊢
  cases hattempt with
  | made hopens => cases hfull.symm.trans hopens.slot
  | kernel hother => cases ha.symm.trans hother
  | _ => rfl

theorem creation_null (ha : a.makesProcess = true) (hentry : ¬a.EntryGiven) :
    s.outcome image a = -1 := by
  have hattempt := attempt image s (isCreation_of_makesProcess ha)
  generalize s.outcome image a = r, s.act image a = s' at hattempt ⊢
  cases hattempt with
  | made _ _ _ _ _ h => exact absurd h.entry hentry
  | kernel hother => cases ha.symm.trans hother
  | _ => rfl

theorem allocTaskSlot_eq (s : Sched) : s.allocTaskSlot = firstSlot (fun x => !x.live) s.tasks := by
  have hdead : (fun x : Task => decide (x.state = .unused) || decide (x.state = .exited)) =
      fun x => !x.live := by
    funext x
    cases hx : x.state <;> simp [Task.live, hx]
  rw [allocTaskSlot, hdead]

-- A process slot is free for the first seven processes, whatever has become of them.
theorem creation_step (h : Filed n s) (htid : s.nextTid.slt 0 = false) (ha : a.makesProcess = true)
    (hsupplied : a.Supplied) (hlive : s.liveTasks ≤ 15) :
    (s.outcome image a ≠ -1 ↔ a.EntryGiven ∧ n + 1 ≤ 7) ∧
      (a.EntryGiven → n + 1 ≤ 7 → Filed (n + 1) (s.act image a)) := by
  have hslot : ∃ i, s.allocTaskSlot = some i := by
    cases hi : s.allocTaskSlot with
    | some i => exact ⟨i, rfl⟩
    | none =>
      grind [allocTaskSlot_eq, firstSlot_free_eq_none_iff, liveTasks]
  obtain ⟨i, hi⟩ := hslot
  have hroom : a.EntryGiven → n + 1 ≤ 7 →
      s.outcome image a = s.nextPid ∧ Filed (n + 1) (s.act image a) := by
    cases hj : firstSlot (fun p => !p.used) s.processes with
    | some j => grind [creation_room]
    | none =>
      rw [firstSlot_free_eq_none_iff, h.used, kMaxProcesses] at hj
      omega
  refine ⟨⟨fun hdone => ?_, ?_⟩, fun hentry hn => (hroom hentry hn).2⟩
  · have hentry : a.EntryGiven := by
      by_contra hnull
      exact hdone (creation_null ha hnull)
    refine ⟨hentry, ?_⟩
    by_contra hn
    have hle := h.le
    have hfull : countSlots Process.used s.processes = kMaxProcesses := by
      rw [h.used, kMaxProcesses]
      omega
    exact hdone (creation_full ha (firstSlot_free_eq_none_iff.mpr hfull))
  · rintro ⟨hentry, hn⟩ hfailed
    have hnat := h.nextPid_toNat
    grind

theorem act_stacks (image : Image) (s : Sched) (a : Action) :
    (s.act image a).nextTid = s.nextTid ∨
      ∃ i b, a.stack = some b ∧ AddsTask image s (s.act image a) b i := by
  by_cases hcreation : a.isCreation = true
  · grind [creation_tasks, SameTasks.nextTid]
  · refine Or.inl ?_
    cases a with
    | sleepCurrent ticks nowTick =>
      rw [act, sleepCurrent]
      split_ifs
      · rfl
      · cases s.currentTaskPtr <;> rfl
    | exitCurrent => exact (exitCurrent_numbers s).2
    | timer virtToPhys currentEsp tickCount =>
      exact (steady_timer s virtToPhys currentEsp tickCount).nextTid
    | _ => exact absurd rfl hcreation

end Creations

end Sched

namespace Trace

variable {image : Image} {t : Trace} {a : Action} {actions : List Action} {n : Nat}

-- The stacks that the heap has given, and the numbers of their tasks.
structure Stacked (t : Trace) : Prop where
  current : (t.sched.tasks t.sched.currentTask).state ≠ .unused
  apart : t.blocks.Pairwise Block.Apart
  inHeap : ∀ b ∈ t.blocks, kHeapStart ≤ b.start ∧ b.stop ≤ kHeapLimit ∧ 4096 ≤ b.size
  nextTid : t.sched.nextTid = BitVec.ofNat 32 (t.blocks.length + 2)

theorem boot_stacked (image : Image) (s : Sched) (kernelStackEsp : Word) :
    (boot image s kernelStackEsp).Stacked :=
  have h := boot_inv image s kernelStackEsp
  ⟨h.current, h.apart, h.inHeap, h.nextTid⟩

theorem Stacked.nextTid_pos (h : t.Stacked) : t.sched.nextTid.slt 0 = false := by
  have hle := stacks_le h.apart h.inHeap
  have htid : t.sched.nextTid.toNat = t.blocks.length + 2 := by
    rw [h.nextTid, BitVec.toNat_ofNat, Nat.mod_eq_of_lt (by omega)]
  rw [BitVec.slt_eq_decide, decide_eq_false_iff_not, BitVec.toInt_eq_toNat_of_lt (by omega)]
  exact not_lt.mpr (Int.natCast_nonneg _)

theorem Stacked.act (h : t.Stacked) (hpermits : t.Permits a) : (t.act image a).Stacked := by
  have hcurrent := @Sched.act_current image t.sched a h.current hpermits.running
  obtain htid | ⟨i, b, hstack, hadds⟩ := Sched.act_stacks image t.sched a
  · have hblocks : (t.act image a).blocks = t.blocks := by
      rw [Trace.act, Sched.created_none htid]
      rfl
    refine ⟨hcurrent, ?_, ?_, ?_⟩
    · rw [hblocks]
      exact h.apart
    · rw [hblocks]
      exact h.inHeap
    · rw [hblocks]
      exact htid.trans h.nextTid
  · have hblocks : (t.act image a).blocks = b :: t.blocks := by
      rw [Trace.act, hadds.created, hstack]
      rfl
    obtain ⟨hlo, hhi, hapart⟩ := hpermits.grants b hstack
    refine ⟨hcurrent, ?_, ?_, ?_⟩
    · rw [hblocks]
      exact List.pairwise_cons.mpr ⟨hapart, h.apart⟩
    · rw [hblocks]
      exact List.forall_mem_cons.mpr ⟨⟨hlo, hhi, hadds.size⟩, h.inHeap⟩
    · rw [hblocks, List.length_cons]
      refine hadds.nextTid.trans ?_
      rw [h.nextTid]
      bv_omega

-- Whatever a creation needs is there: memory, and by the number of those that live a slot in each
-- table.
def Supplied (image : Image) : Trace → List Action → Prop
  | _, [] => True
  | t, a :: rest => t.Permits a ∧ a.Supplied ∧
      (a.makesProcess = true → t.sched.liveProcesses ≤ 7 ∧ t.sched.liveTasks ≤ 15) ∧
      Supplied image (t.act image a) rest

def AllCreated (image : Image) : Trace → List Action → Prop
  | _, [] => True
  | t, a :: rest => (a.makesProcess = true → t.sched.outcome image a ≠ -1) ∧
      AllCreated image (t.act image a) rest

theorem allCreated_iff (hstacked : t.Stacked) (hfiled : t.sched.Filed n)
    (h : Supplied image t actions) :
    AllCreated image t actions ↔
      (∀ a ∈ actions, a.EntryGiven) ∧ n + actions.countP Action.makesProcess ≤ 7 := by
  induction actions generalizing t n with
  | nil => simp [AllCreated, hfiled.le]
  | cons a actions ih =>
    obtain ⟨hpermits, hsupplied, hfew, hrest⟩ := h
    have hstacked' := @Stacked.act image t a hstacked hpermits
    rw [AllCreated, List.forall_mem_cons]
    by_cases ha : a.makesProcess = true
    · obtain ⟨hiff, hnext⟩ := @Sched.creation_step image t.sched a n hfiled
        hstacked.nextTid_pos ha hsupplied (hfew ha).2
      rw [List.countP_cons_of_pos ha]
      constructor
      · rintro ⟨hdone, hall⟩
        obtain ⟨hentry, hn⟩ := hiff.mp (hdone ha)
        obtain ⟨hentries, hcount⟩ := (ih hstacked' (hnext hentry hn) hrest).mp hall
        exact ⟨⟨hentry, hentries⟩, by omega⟩
      · rintro ⟨⟨hentry, hentries⟩, hcount⟩
        have hn : n + 1 ≤ 7 := by omega
        refine ⟨fun _ => hiff.mpr ⟨hentry, hn⟩, ?_⟩
        exact (ih hstacked' (hnext hentry hn) hrest).mpr ⟨hentries, by omega⟩
    · have hother : a.makesProcess = false := Bool.eq_false_iff.mpr ha
      have hgiven : a.EntryGiven := by
        cases a with
        | createProcessTask name entry stackSize clone stack => cases hother
        | _ => trivial
      have hfiled' := hfiled.congr (Sched.registry_act image t.sched hother)
      rw [List.countP_cons_of_neg ha, ih hstacked' hfiled' hrest]
      simp [hgiven, ha]

theorem boot_filed (image : Image) (s : Sched) (kernelStackEsp : Word) :
    (boot image s kernelStackEsp).sched.Filed 0 := by
  have hfresh : Sched.Fresh image kernelStackEsp (boot image s kernelStackEsp).sched :=
    Sched.init_fresh kernelStackEsp rfl
  obtain ⟨p, hused, hpid, _, _, hprocesses⟩ := hfresh.processes
  refine ⟨?_, ?_, hfresh.nextPid⟩
  · rw [hprocesses, countSlots_fill rfl hused]
    rfl
  · intro j hj
    rw [hprocesses] at hj ⊢
    by_cases hj0 : j = 0
    · rw [hj0, Function.update_self, hpid]
      decide
    · rw [Function.update_of_ne hj0] at hj
      cases hj

-- No slot of the process table is ever given back: with all that a creation needs at hand, every
-- process that a run asks for is made exactly when it asks for no more than seven.
theorem processes_created_iff (image : Image) (s : Sched) (kernelStackEsp : Word)
    {actions : List Action} (h : Supplied image (boot image s kernelStackEsp) actions) :
    AllCreated image (boot image s kernelStackEsp) actions ↔
      (∀ a ∈ actions, a.EntryGiven) ∧ actions.countP Action.makesProcess ≤ 7 := by
  rw [allCreated_iff (boot_stacked image s kernelStackEsp) (boot_filed image s kernelStackEsp) h,
    Nat.zero_add]

section Eighth

instance decidableGrants (blocks : List Block) (b : Block) : Decidable (Grants blocks b) :=
  have : DecidablePred fun c : Block => b.Apart c := fun c =>
    inferInstanceAs (Decidable (b.stop ≤ c.start ∨ c.stop ≤ b.start))
  inferInstanceAs (Decidable (_ ∧ _ ∧ ∀ c ∈ blocks, b.Apart c))

instance decidablePermits (t : Trace) (a : Action) : Decidable (t.Permits a) :=
  decidable_of_iff ((a.isTimer = false → (t.sched.tasks t.sched.currentTask).state ≠ .exited) ∧
      ∀ b ∈ a.stack, Grants t.blocks b)
    ⟨fun h => ⟨h.1, h.2⟩, fun h => ⟨h.running, h.grants⟩⟩

instance decidableSupplied (image : Image) : ∀ t actions, Decidable (Supplied image t actions)
  | _, [] => isTrue trivial
  | t, a :: rest =>
      have := decidableSupplied image (t.act image a) rest
      inferInstanceAs (Decidable (t.Permits a ∧ a.Supplied ∧
        (a.makesProcess = true → t.sched.liveProcesses ≤ 7 ∧ t.sched.liveTasks ≤ 15) ∧ _))

instance decidableAllCreated (image : Image) : ∀ t actions, Decidable (AllCreated image t actions)
  | _, [] => isTrue trivial
  | t, a :: rest =>
      have := decidableAllCreated image (t.act image a) rest
      inferInstanceAs (Decidable ((a.makesProcess = true → t.sched.outcome image a ≠ -1) ∧ _))

def spawnAt (n : Nat) : Action :=
  .createProcessTask none 0x00102000 0 (BitVec.ofNat 32 (0xD0800000 + 4096 * n))
    (BitVec.ofNat 32 (0xD0000000 + 4096 * n))

def sevenProcesses : List Action := (List.range 7).map spawnAt

theorem seven_processes_created : AllCreated loadedImage booted sevenProcesses := by
  apply (processes_created_iff loadedImage bssSched 0x00300000 (by decide +kernel)).mpr
  refine ⟨?_, by decide⟩
  intro a ha
  obtain ⟨n, _, rfl⟩ := List.mem_map.mp ha
  exact (by decide : (0x00102000 : Word) ≠ 0)

-- The first of seven processes ends, and the second one asks for an eighth.
def eightProcesses : List Action :=
  sevenProcesses ++ [.timer id 0x002FFF00 10, .exitCurrent, .timer id 0xD0000F00 20, spawnAt 7]

theorem eighth_process_refused :
    Supplied loadedImage booted eightProcesses ∧ ¬AllCreated loadedImage booted eightProcesses := by
  constructor <;> decide +kernel

end Eighth

end Trace

end Wirth.Kernel.Scheduler

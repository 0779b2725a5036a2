import Wirth.Kernel.Task.Runs
import Wirth.Kernel.Task.Ticks

namespace Wirth.Kernel.Scheduler

open Wirth.Lib Wirth.Lib.X86

namespace Sched

structure Consistent (s : Sched) : Prop where
  threads : s.threadCount.toNat = countSlots Task.live s.tasks
  processes : s.processCount.toNat = countSlots Process.used s.processes
  liveThreads : ∀ j, (s.processes j).used = true → (s.processes j).liveThreads.toNat =
    countSlots (fun t => t.live && t.pid = (s.processes j).pid) s.tasks
  owner : ∀ i, (s.tasks i).live = true →
    ∃ j, (s.processes j).used = true ∧ (s.processes j).pid = (s.tasks i).pid
  tids : ∀ i k, (s.tasks i).live = true → (s.tasks k).live = true →
    (s.tasks i).tid = (s.tasks k).tid → i = k
  pids : ∀ j k, (s.processes j).used = true → (s.processes k).used = true →
    (s.processes j).pid = (s.processes k).pid → j = k

theorem consistent_of_balanced {s : Sched} (h : s.ledger.Balanced) : s.Consistent := by
  have hthread : ∀ {i}, (s.tasks i).live = true →
      s.ledger.threads i = some ⟨(s.tasks i).tid, (s.tasks i).pid⟩ := by
    intro i hi
    simp [ledger, Task.thread, hi]
  have haccount : ∀ {j}, (s.processes j).used = true →
      s.ledger.accounts j = some ⟨(s.processes j).pid, (s.processes j).liveThreads⟩ := by
    intro j hj
    simp [ledger, Process.account, hj]
  constructor
  · rw [show s.threadCount = s.ledger.threadCount from rfl, h.threads]
    grind [countSlots_congr, ledger, Task.thread]
  · rw [show s.processCount = s.ledger.processCount from rfl, h.processes]
    grind [countSlots_congr, ledger, Process.account]
  · intro j hj
    rw [h.live j _ (haccount hj)]
    grind [countSlots_congr, ledger, Task.thread, Ledger.belongsTo]
  · intro i hi
    obtain ⟨j, a, hj, hpid⟩ := h.owner i _ (hthread hi)
    obtain ⟨hused, hpid', -⟩ := account_eq_some hj
    exact ⟨j, hused, hpid'.trans hpid⟩
  · exact fun i k hi hk heq => h.tids i k _ _ (hthread hi) (hthread hk) heq
  · exact fun j k hj hk heq => h.pids j k _ _ (haccount hj) (haccount hk) heq

structure Fresh (image : Image) (kernelStackEsp : Word) (s : Sched) : Prop where
  tasks : s.tasks = Function.update (fun _ => .cleared) 0
    { Task.cleared with state := .runnable, tid := 1, pid := 1, savedEsp := kernelStackEsp }
  processes : ∃ p, p.used = true ∧ p.pid = 1 ∧ p.liveThreads = 1 ∧
    p.addressSpace = image.kernelPageDirectory ∧ s.processes = Function.update (fun _ => .cleared) 0 p
  currentTask : s.currentTask = 0
  nextPid : s.nextPid = 2
  nextTid : s.nextTid = 2
  processCount : s.processCount = 1
  threadCount : s.threadCount = 1
  activeSpace : s.activeSpace = image.kernelPageDirectory

theorem init_spec (image : Image) (s : Sched) (kernelStackEsp : Word) :
    Fresh image kernelStackEsp
        { s.init image kernelStackEsp with activeSpace := image.kernelPageDirectory } ∧
      (s.init image kernelStackEsp).activeSpace = s.activeSpace := by
  have hslot : firstSlot (fun p : Process => !p.used) (fun _ : Fin kMaxProcesses => Process.cleared) =
      some 0 := rfl
  have hcreate : ∀ u : Sched, u.processes = (fun _ => .cleared) → u.processCount = 0 → u.nextPid = 1 →
      createProcess image u (some (lit "kernel")) 0 0 =
        (1, { u with
          processes := Function.update (fun _ => .cleared) 0 { Process.cleared with
            used := true, pid := 1, addressSpace := image.kernelPageDirectory
            home := copyText (lit "/root") 32, name := copyText (lit "kernel") 24 }
          nextPid := 2, processCount := 1 }) := by
    intro u hprocesses hcount hpid
    have hzero : (u.entered 0 0).processCount = 0 ∧ (0 : Word) = 0 := ⟨hcount, rfl⟩
    unfold createProcess
    rw [hprocesses, hslot]
    dsimp only
    rw [if_pos hzero, if_neg image.directory_pos, hpid]
    simp only [filledIn, inherit, hzero]
    simp [entered, setProcess, hprocesses, hcount, hpid, Process.cleared]
  have hfind : ∀ u : Sched, u.processes = Function.update (fun _ => .cleared) 0 { Process.cleared with
      used := true, pid := 1, addressSpace := image.kernelPageDirectory
      home := copyText (lit "/root") 32, name := copyText (lit "kernel") 24 } →
      u.findProcess 1 = some 0 := by
    intro u hprocesses
    rw [findProcess, hprocesses]
    rfl
  unfold init
  dsimp only
  rw [hcreate _ rfl rfl rfl]
  dsimp only
  rw [if_neg (by decide), hfind _ rfl]
  refine ⟨⟨?_, ⟨_, rfl, rfl, rfl, rfl, Function.update_idem ..⟩, rfl, rfl, rfl, rfl, rfl, rfl⟩, rfl⟩
  simp [setProcess, setTask, Task.cleared]

theorem init_fresh {image : Image} {s : Sched} (kernelStackEsp : Word)
    (hspace : s.activeSpace = image.kernelPageDirectory) :
    Fresh image kernelStackEsp (s.init image kernelStackEsp) := by
  obtain ⟨hfresh, hkept⟩ := init_spec image s kernelStackEsp
  rw [← hspace, ← hkept] at hfresh
  exact hfresh

end Sched

section Hosts

variable {s u : Sched} {j : Fin kMaxProcesses}

theorem Host.same (h : Host s j u) : u.tasks = s.tasks ∧ u.currentTask = s.currentTask ∧
    u.nextTid = s.nextTid ∧ u.activeSpace = s.activeSpace ∧ u.memory = s.memory := by
  cases h with
  | existing => exact ⟨rfl, rfl, rfl, rfl, rfl⟩
  | entered p => exact ⟨rfl, rfl, rfl, rfl, rfl⟩

theorem Host.balanced (h : Host s j u) (hs : s.Numbered) (hb : s.ledger.Balanced) :
    u.ledger.Balanced := by
  cases h with
  | existing => exact hb
  | entered p hfree hused hpid hlive hspace =>
    rw [Sched.ledger_opened hused hpid hlive]
    apply hb.openAccount
    · simp [Sched.ledger, Process.account, hfree]
    · intro k c hk
      obtain ⟨hkused, hkpid, -⟩ := Sched.account_eq_some hk
      rw [← hkpid]
      exact hs.pid_fresh k hkused

theorem Host.numbers (h : Host s j u) {n m : Nat} (hm : s.nextPid = BitVec.ofNat 32 m)
    (hle : m ≤ n) (hn : n < 2 ^ 32) (hlt : ∀ k c, s.ledger.accounts k = some c → c.pid.toNat < m) :
    ∃ m', m ≤ m' ∧ m' ≤ n + 1 ∧ u.nextPid = BitVec.ofNat 32 m' ∧
      ∀ k c, u.ledger.accounts k = some c → c.pid.toNat < m' := by
  cases h with
  | existing => exact ⟨m, le_refl m, by omega, hm, hlt⟩
  | entered p hfree hused hpid hlive hspace =>
    refine ⟨m + 1, by omega, by omega, ?_, ?_⟩
    · change s.nextPid + 1 = _
      rw [hm, BitVec.ofNat_add]
      rfl
    · intro k c hk
      rw [Sched.ledger_opened hused hpid hlive] at hk
      obtain ⟨-, hnew⟩ | ⟨-, hold⟩ := update_eq_some hk
      · grind
      · exact Nat.lt_succ_of_lt (hlt k c hold)

end Hosts

namespace Trace

variable {image : Image} {t : Trace} {a : Action}

-- The numbers of tasks follow the stacks that the heap has given, those of processes the calls.
structure Inv (t : Trace) : Prop where
  balanced : t.sched.ledger.Balanced
  current : (t.sched.tasks t.sched.currentTask).state ≠ .unused
  apart : t.blocks.Pairwise Block.Apart
  inHeap : ∀ b ∈ t.blocks, kHeapStart ≤ b.start ∧ b.stop ≤ kHeapLimit ∧ 4096 ≤ b.size
  nextTid : t.sched.nextTid = BitVec.ofNat 32 (t.blocks.length + 2)
  tid_lt : ∀ i x, t.sched.ledger.threads i = some x → x.tid.toNat < t.blocks.length + 2
  nextPid : ∃ m, 2 ≤ m ∧ m ≤ t.creations + 2 ∧ t.sched.nextPid = BitVec.ofNat 32 m ∧
    ∀ j c, t.sched.ledger.accounts j = some c → c.pid.toNat < m

theorem stacks_le {blocks : List Block} (hapart : blocks.Pairwise Block.Apart)
    (hin : ∀ b ∈ blocks, kHeapStart ≤ b.start ∧ b.stop ≤ kHeapLimit ∧ 4096 ≤ b.size) :
    blocks.length ≤ 4096 := by
  apply @length_le_of_apart _ kHeapStart 4096 4096 (by decide) hapart
  · intro b hb
    obtain ⟨hlo, hhi, -⟩ := hin b hb
    exact ⟨hlo, hhi⟩
  · intro b hb
    exact (hin b hb).2.2

theorem Inv.blocks_le (h : t.Inv) : t.blocks.length ≤ 4096 := stacks_le h.apart h.inHeap

theorem Inv.numbered (h : t.Inv) (hcreations : t.creations + 2 < 2 ^ 32) : t.sched.Numbered := by
  obtain ⟨m, hm, hle, hpid, hlt⟩ := h.nextPid
  have hnat : t.sched.nextPid.toNat = m := by
    grind
  have hblocks := h.blocks_le
  have htid : t.sched.nextTid.toNat = t.blocks.length + 2 := by
    rw [h.nextTid, BitVec.toNat_ofNat, Nat.mod_eq_of_lt (by omega)]
  refine ⟨?_, ?_, ?_, h.balanced.processes_le⟩
  · grind
  · intro j hused heq
    have := hlt j ⟨(t.sched.processes j).pid, (t.sched.processes j).liveThreads⟩
      (by simp [Sched.ledger, Process.account, hused])
    grind
  grind [BitVec.slt_eq_decide]

theorem boot_inv (image : Image) (s : Sched) (kernelStackEsp : Word) :
    (boot image s kernelStackEsp).Inv := by
  have hfresh : Sched.Fresh image kernelStackEsp (boot image s kernelStackEsp).sched :=
    Sched.init_fresh kernelStackEsp rfl
  obtain ⟨p, hused, hpid, hlive, -, hprocesses⟩ := hfresh.processes
  have hledger : (boot image s kernelStackEsp).sched.ledger =
      (Ledger.openAccount ⟨fun _ => none, fun _ => none, 0, 0⟩ 0 1).addThread 0 0 ⟨1, 0⟩ 1 := by
    rw [Sched.ledger, Ledger.addThread, Ledger.openAccount, hfresh.tasks, hprocesses,
      hfresh.threadCount, hfresh.processCount]
    congr 1
    · funext i
      by_cases hi : i = 0
      · rw [hi, Function.update_self, Function.update_self]
        rfl
      · rw [Function.update_of_ne hi, Function.update_of_ne hi]
        rfl
    · funext j
      rw [Function.update_idem]
      by_cases hj : j = 0
      · simp [Process.account, hj, hused, hpid, hlive]
      · rw [Function.update_of_ne hj, Function.update_of_ne hj]
        rfl
  have hbalanced : (boot image s kernelStackEsp).sched.ledger.Balanced := by
    rw [hledger]
    apply Ledger.Balanced.addThread
    · apply Ledger.balanced_empty.openAccount rfl
      intro k c hk
      cases hk
    · rfl
    · rfl
    · intro k x hk
      cases hk
  refine ⟨hbalanced, ?_, List.Pairwise.nil, ?_, hfresh.nextTid, ?_, ?_⟩
  · rw [hfresh.tasks, hfresh.currentTask, Function.update_self]
    intro hunused
    cases hunused
  · intro b hb
    cases hb
  · intro i x hx
    rw [hledger] at hx
    obtain ⟨-, h⟩ | ⟨-, h⟩ := update_eq_some hx
    · grind
    · cases h
  · refine ⟨2, le_refl _, le_refl _, hfresh.nextPid, ?_⟩
    intro j c hc
    rw [hledger] at hc
    obtain ⟨-, h⟩ | ⟨-, h⟩ := update_eq_some hc
    · rw [← Option.some.inj h]
      decide
    · obtain ⟨-, h⟩ | ⟨-, h⟩ := update_eq_some h
      · rw [← Option.some.inj h]
        decide
      · cases h

section Steps

theorem Inv.keep (h : t.Inv) (htid : (t.sched.act image a).nextTid = t.sched.nextTid)
    (hpid : (t.sched.act image a).nextPid = t.sched.nextPid ∨
      (t.sched.act image a).nextPid = t.sched.nextPid + 1 ∧ a.isCreation = true)
    (hcurrent : ((t.sched.act image a).tasks (t.sched.act image a).currentTask).state ≠ .unused)
    (hbalanced : (t.sched.act image a).ledger.Balanced)
    (hthreads : ∀ i x, (t.sched.act image a).ledger.threads i = some x →
      t.sched.ledger.threads i = some x)
    (haccounts : ∀ j c, (t.sched.act image a).ledger.accounts j = some c →
      ∃ d, t.sched.ledger.accounts j = some d ∧ d.pid = c.pid) :
    (t.act image a).Inv := by
  have hblocks : (t.act image a).blocks = t.blocks := by
    rw [act, Sched.created_none htid]
    rfl
  obtain ⟨m, hm, hle, hm', hlt⟩ := h.nextPid
  have hold : ∀ j c, (t.sched.act image a).ledger.accounts j = some c → c.pid.toNat < m := by
    intro j c hc
    obtain ⟨d, hd, hdc⟩ := haccounts j c hc
    rw [← hdc]
    exact hlt j d hd
  refine ⟨hbalanced, hcurrent, by rw [hblocks]; exact h.apart, by rw [hblocks]; exact h.inHeap, ?_, ?_, ?_⟩
  · rw [hblocks]
    exact htid.trans h.nextTid
  · rw [hblocks]
    exact fun i x hx => h.tid_lt i x (hthreads i x hx)
  · rcases hpid with hsame | ⟨hnext, ha⟩
    · exact ⟨m, hm, hle.trans (Nat.add_le_add_right (Nat.le_add_right _ _) 2), hsame.trans hm', hold⟩
    · refine ⟨m + 1, by omega, ?_, ?_, fun j c hc => Nat.lt_succ_of_lt (hold j c hc)⟩
      · rw [act, ha]
        exact Nat.add_le_add_right hle 1
      · rw [show (t.act image a).sched = t.sched.act image a from rfl, hnext, hm', BitVec.ofNat_add]
        rfl

theorem Inv.steady (h : t.Inv) (hsteady : Sched.Steady t.sched (t.sched.act image a))
    (hcurrent : ((t.sched.act image a).tasks (t.sched.act image a).currentTask).state ≠ .unused) :
    (t.act image a).Inv := by
  have hledger := hsteady.ledger_eq
  apply h.keep hsteady.nextTid (.inl hsteady.nextPid) hcurrent
  · rw [hledger]
    exact h.balanced
  · rw [hledger]
    exact fun _ _ hx => hx
  grind

theorem Inv.unspoiled (h : t.Inv) (hlive : (t.sched.tasks t.sched.currentTask).live = true)
    (ha : a.isCreation = true) (hu : Sched.Unspoiled t.sched (t.sched.act image a)) :
    (t.act image a).Inv := by
  have hledger := hu.ledger_eq
  apply h.keep hu.nextTid (hu.nextPid.imp_right fun hnext => ⟨hnext, ha⟩)
  · rw [hu.currentTask, hu.tasks _ hlive]
    exact h.current
  · rw [hledger]
    exact h.balanced
  · rw [hledger]
    exact fun _ _ hx => hx
  grind

theorem Inv.exit (h : t.Inv) (hlive : (t.sched.tasks t.sched.currentTask).live = true) :
    (t.act image .exitCurrent).Inv := by
  obtain ⟨j, c, hj, hpid, hledger, heq⟩ := Sched.exitCurrent_cases h.balanced hlive
  have hact : t.sched.act image .exitCurrent = t.sched.exitCurrent := rfl
  have hthread : t.sched.ledger.threads t.sched.currentTask =
      some ⟨(t.sched.tasks t.sched.currentTask).tid, (t.sched.tasks t.sched.currentTask).pid⟩ := by
    simp [Sched.ledger, Task.thread, hlive]
  apply h.keep
  · rw [hact, heq]
    rfl
  · rw [hact, heq]
    exact .inl rfl
  · rw [hact, heq]
    simp [Sched.setTask, Sched.setProcess]
  · rw [hact, hledger]
    exact h.balanced.removeThread hthread hj hpid
  · rw [hact, hledger]
    intro i x hx
    obtain ⟨-, hnone⟩ | ⟨-, hx⟩ := update_eq_some hx
    · cases hnone
    · exact hx
  · rw [hact, hledger]
    intro k d hd
    obtain ⟨rfl, hnew⟩ | ⟨-, hold⟩ := update_eq_some hd
    · grind
    · exact ⟨d, hold, rfl⟩

end Steps

theorem Inv.spawn {u : Sched} {i : Fin kMaxTasks} {j : Fin kMaxProcesses} {x : Task}
    {m : Word → Word} {b : Block} (h : t.Inv)
    (hcreations : t.creations + 2 < 2 ^ 32) (ha : a.isCreation = true)
    (hlive : (t.sched.tasks t.sched.currentTask).live = true) (hgrants : Grants t.blocks b)
    (hhost : Host t.sched j u) (hfind : u.findProcess x.pid = some j)
    (hslot : t.sched.allocTaskSlot = some i) (hstack : a.stack = some b) (hsize : 4096 ≤ b.size)
    (hstate : x.state = .runnable) (htid : x.tid = t.sched.nextTid)
    (hact : t.sched.act image a = u.spawned i j x m) : (t.act image a).Inv := by
  obtain ⟨htasks, hcurrent, hnextTid, -, -⟩ := hhost.same
  have hdead := Sched.allocTaskSlot_dead hslot
  have hblocks_le := h.blocks_le
  have htid' : (u.spawned i j x m).nextTid = t.sched.nextTid + 1 := by
    change u.nextTid + 1 = _
    rw [hnextTid]
  have hcreated : t.sched.created image a = some i := by
    rw [Sched.created, hact, htid', if_neg (by bv_omega), hslot]
  have hblocks : (t.act image a).blocks = b :: t.blocks := by
    simp only [act, hcreated, hstack]
    rfl
  have hsched : (t.act image a).sched = u.spawned i j x m := hact
  have hnat : t.sched.nextTid.toNat = t.blocks.length + 2 := by
    rw [h.nextTid, BitVec.toNat_ofNat, Nat.mod_eq_of_lt (by omega)]
  have hu := hhost.balanced (h.numbered hcreations) h.balanced
  have hthreads : u.ledger.threads = t.sched.ledger.threads := by
    simp only [Sched.ledger, htasks]
  obtain ⟨c, hc, hledger⟩ := Sched.ledger_spawned (i := i) (m := m) hfind hstate
  obtain ⟨k, hk2, hk, hnextPid, hlt⟩ := h.nextPid
  obtain ⟨k', hkk', hk', hnextPid', hlt'⟩ := hhost.numbers hnextPid hk (by omega) hlt
  have hne : t.sched.currentTask ≠ i := by
    rintro rfl
    rw [hdead] at hlive
    cases hlive
  refine ⟨?_, ?_, ?_, ?_, ?_, ?_, ?_⟩
  · rw [hsched, hledger]
    apply hu.addThread _ hc
    · intro k y hy heq
      rw [hthreads] at hy
      have hlt := h.tid_lt k y hy
      grind
    grind [Sched.ledger, Task.thread]
  · rw [hsched]
    change (Function.update u.tasks i x u.currentTask).state ≠ .unused
    rw [hcurrent, Function.update_of_ne hne, htasks]
    exact h.current
  · rw [hblocks]
    exact List.pairwise_cons.mpr ⟨hgrants.2.2, h.apart⟩
  · rw [hblocks]
    intro d hd
    rcases List.mem_cons.mp hd with rfl | hd
    · exact ⟨hgrants.1, hgrants.2.1, hsize⟩
    · exact h.inHeap d hd
  · rw [hsched, htid', h.nextTid, hblocks, List.length_cons]
    bv_omega
  · rw [hsched, hledger, hblocks, List.length_cons]
    intro k y hy
    obtain ⟨-, hnew⟩ | ⟨-, hold⟩ := update_eq_some hy
    · grind
    · rw [hthreads] at hold
      have := h.tid_lt k y hold
      omega
  · refine ⟨k', hk2.trans hkk', ?_, ?_, ?_⟩
    · rw [act, ha]
      exact hk'
    · rw [hsched]
      exact hnextPid'
    · rw [hsched, hledger]
      intro l d hd
      obtain ⟨-, hnew⟩ | ⟨-, hold⟩ := update_eq_some hd
      · grind
      · exact hlt' l d hold

theorem Inv.act (h : t.Inv) (hpermits : t.Permits a)
    (hcreations : (t.act image a).creations < 2 ^ 32 - 1) : (t.act image a).Inv := by
  by_cases ha : a.isCreation = true
  · have hcount : t.creations + 2 < 2 ^ 32 := by
      rw [Trace.act, ha] at hcreations
      change t.creations + 1 < 2 ^ 32 - 1 at hcreations
      omega
    have hlive := Task.live_of_ne h.current (hpermits.running (by cases a <;> first | rfl | cases ha))
    obtain hu | ⟨u, i, j, x, m, b, hhost, hfind, hslot, hstack, hsize, -, hstate, htid, -, hact⟩ :=
      Sched.creation_cases image (h.numbered hcount) ha
    · exact h.unspoiled hlive ha hu
    · exact h.spawn hcount ha hlive (hpermits.grants b hstack) hhost hfind hslot hstack hsize hstate htid
        hact
  · cases a with
    | createKernelTask | createProcessTask | createRing3Task => exact absurd rfl ha
    | sleepCurrent ticks nowTick =>
      have hlive := Task.live_of_ne h.current (hpermits.running rfl)
      have hsteady : t.sched.Steady (t.sched.act image (.sleepCurrent ticks nowTick)) :=
        Sched.steady_sleepCurrent ticks nowTick hlive
      apply h.steady hsteady
      intro hunused
      have hcurrent : (t.sched.act image (.sleepCurrent ticks nowTick)).currentTask =
        t.sched.currentTask := Sched.sleepCurrent_currentTask ..
      rw [hcurrent] at hunused
      exact h.current ((Task.unused_of_core (hsteady.tasks _)).mp hunused)
    | exitCurrent => exact h.exit (Task.live_of_ne h.current (hpermits.running rfl))
    | timer virtToPhys currentEsp tickCount =>
      exact h.steady (Sched.steady_timer _ virtToPhys currentEsp tickCount)
        (Sched.timer_current virtToPhys currentEsp tickCount h.current)

-- As long as the numbers of processes have not run through all their values.
theorem Run.inv {allowed : Trace → Action → Prop} (h : Run image allowed t)
    (hcreations : t.creations < 2 ^ 32 - 1) : t.Inv := by
  induction h with
  | boot s kernelStackEsp => exact boot_inv image s kernelStackEsp
  | act ht hpermits hallowed ih =>
    exact (ih (lt_of_le_of_lt (Nat.le_add_right _ _) hcreations)).act hpermits hcreations

-- After any run, the tables and the counters agree.
theorem tables_consistent {t : Trace} (h : Run image (fun _ _ => True) t)
    (hcreations : t.creations < 2 ^ 32 - 1) : t.sched.Consistent :=
  Sched.consistent_of_balanced (h.inv hcreations).balanced

-- A kernel that has just been loaded.

def loadedImage : Image := ⟨0x00200000, 0x00101000, by decide⟩

def bssSched : Sched :=
  { tasks := fun _ => ⟨.unused, 0, 0, 0, 0, 0, 0, 0, 0, 0, false⟩
    processes := fun _ => .cleared
    currentTask := 0
    nextPid := 1
    nextTid := 1
    processCount := 0
    threadCount := 0
    activeSpace := 0
    kernelStack := 0
    memory := fun _ => 0 }

def booted : Trace := boot loadedImage bssSched 0x00300000

theorem permits_of_free {t : Trace} {a : Action}
    (hrunning : (t.sched.tasks t.sched.currentTask).state ≠ .exited)
    (hgrants : ∀ b, a.stack = some b → kHeapStart ≤ b.start ∧ b.stop ≤ kHeapLimit)
    (hblocks : t.blocks = []) : t.Permits a := by
  refine ⟨fun _ => hrunning, ?_⟩
  intro b hb
  refine ⟨(hgrants b hb).1, (hgrants b hb).2, ?_⟩
  rw [hblocks]
  nofun

-- The first task that the kernel makes, on the first page of the heap.
def firstTask : Action := .createKernelTask 0x00102000 0 0xD0000010

theorem firstTask_run (allowed : Trace → Action → Prop) (h : allowed booted firstTask) :
    Run loadedImage allowed (booted.act loadedImage firstTask) := by
  refine .act (.boot bssSched 0x00300000) (permits_of_free ?_ ?_ rfl) h
  · decide
  · intro b hb
    rw [← Option.some.inj hb]
    decide

theorem tables_consistent_firstTask : (booted.act loadedImage firstTask).sched.threadCount = 2 ∧
    (booted.act loadedImage firstTask).sched.Consistent :=
  ⟨by decide +kernel, tables_consistent (firstTask_run _ trivial) (by decide +kernel)⟩

end Trace

end Wirth.Kernel.Scheduler

import Wirth.Kernel.Task.Scheduler

namespace Wirth.Kernel.Scheduler

open Wirth.Lib Wirth.Lib.X86

structure Thread where
  tid : Word
  pid : Word

structure Account where
  pid : Word
  liveThreads : Word

-- What the four counters are about: the threads and processes that exist, without anything that
-- scheduling needs to know.
structure Ledger where
  threads : Fin kMaxTasks → Option Thread
  accounts : Fin kMaxProcesses → Option Account
  threadCount : Word
  processCount : Word

namespace Ledger

def belongsTo (pid : Word) (t : Option Thread) : Bool := t.any fun t => t.pid = pid

structure Balanced (b : Ledger) : Prop where
  threads : b.threadCount.toNat = countSlots Option.isSome b.threads
  processes : b.processCount.toNat = countSlots Option.isSome b.accounts
  live : ∀ j a, b.accounts j = some a → a.liveThreads.toNat = countSlots (belongsTo a.pid) b.threads
  owner : ∀ i t, b.threads i = some t → ∃ j a, b.accounts j = some a ∧ a.pid = t.pid
  tids : DistinctBy Thread.tid b.threads
  pids : DistinctBy Account.pid b.accounts

def openAccount (b : Ledger) (j : Fin kMaxProcesses) (pid : Word) : Ledger :=
  { b with
    accounts := Function.update b.accounts j (some ⟨pid, 0⟩)
    processCount := b.processCount + 1 }

def addThread (b : Ledger) (i : Fin kMaxTasks) (j : Fin kMaxProcesses) (a : Account) (tid : Word) :
    Ledger :=
  { b with
    threads := Function.update b.threads i (some ⟨tid, a.pid⟩)
    accounts := Function.update b.accounts j (some ⟨a.pid, a.liveThreads + 1⟩)
    threadCount := b.threadCount + 1 }

def removeThread (b : Ledger) (i : Fin kMaxTasks) (j : Fin kMaxProcesses) (a : Account) : Ledger :=
  { b with
    threads := Function.update b.threads i none
    accounts := Function.update b.accounts j (some ⟨a.pid, a.liveThreads - 1⟩)
    threadCount := b.threadCount - 1 }

section Balance

variable {b : Ledger} {i : Fin kMaxTasks} {j : Fin kMaxProcesses} {a : Account} {tid pid : Word}

-- The tables are small, so the counters cannot overflow.

theorem Balanced.threads_le (hb : b.Balanced) : b.threadCount.toNat ≤ 16 := by
  rw [hb.threads]
  exact countSlots_le _ _

theorem Balanced.processes_le (hb : b.Balanced) : b.processCount.toNat ≤ 8 := by
  rw [hb.processes]
  exact countSlots_le _ _

theorem Balanced.live_le (hb : b.Balanced) (hj : b.accounts j = some a) : a.liveThreads.toNat ≤ 16 := by
  rw [hb.live j a hj]
  exact countSlots_le _ _

variable {t : Thread} {w : Word}

theorem Balanced.threads_pos (hb : b.Balanced) (hi : b.threads i = some t) :
    0 < b.threadCount.toNat := by
  rw [hb.threads]
  exact countSlots_pos (i := i) (by rw [hi]; rfl)

theorem Balanced.live_pos (hb : b.Balanced) (hi : b.threads i = some t)
    (hj : b.accounts j = some a) (hpid : a.pid = t.pid) : 0 < a.liveThreads.toNat := by
  rw [hb.live j a hj]
  exact countSlots_pos (i := i) (by rw [hi]; simp [belongsTo, hpid])

theorem toNat_succ {n : Nat} (h : w.toNat ≤ n) (hn : n < 2 ^ 32 - 1) :
    (w + 1).toNat = w.toNat + 1 := by
  bv_omega

theorem toNat_pred (h : 0 < w.toNat) : (w - 1).toNat = w.toNat - 1 := by
  bv_omega

theorem owner_update {d : Account} (hj : b.accounts j = some a) (hpid : d.pid = a.pid)
    (h : ∃ k c, b.accounts k = some c ∧ c.pid = t.pid) :
    ∃ k c, Function.update b.accounts j (some d) k = some c ∧ c.pid = t.pid := by
  obtain ⟨k, c, hk, hc⟩ := h
  by_cases hkj : k = j
  · rw [hkj, hj, Option.some.injEq] at hk
    exact ⟨j, d, Function.update_self .., by rw [hpid, hk, hc]⟩
  · exact ⟨k, c, by rw [Function.update_of_ne hkj]; exact hk, hc⟩

theorem balanced_empty : Balanced ⟨fun _ => none, fun _ => none, 0, 0⟩ where
  threads := rfl
  processes := rfl
  live := by
    intro j a h
    cases h
  owner := by
    intro i t h
    cases h
  tids := by
    intro i j t u h
    cases h
  pids := by
    intro i j a c h
    cases h

theorem Balanced.openAccount (hb : b.Balanced) (hj : b.accounts j = none)
    (hpid : ∀ k c, b.accounts k = some c → c.pid ≠ pid) : (b.openAccount j pid).Balanced := by
  have hnobody : countSlots (belongsTo pid) b.threads = 0 := by
    apply Finset.card_eq_zero.mpr
    apply Finset.filter_eq_empty_iff.mpr
    intro i _ hi
    cases ht : b.threads i with
    | none => simp [belongsTo, ht] at hi
    | some t =>
      obtain ⟨k, c, hk, hc⟩ := hb.owner i t ht
      grind [belongsTo]
  constructor
  · exact hb.threads
  · rw [Ledger.openAccount, toNat_succ hb.processes_le (by decide), hb.processes]
    simp [countSlots_fill, hj]
  · intro k c hk
    obtain ⟨-, hc⟩ | ⟨-, hc⟩ := update_eq_some hk
    · rw [← Option.some.inj hc]
      exact hnobody.symm
    · exact hb.live k c hc
  · intro i t hi
    obtain ⟨k, c, hk, hc⟩ := hb.owner i t hi
    have hkj : k ≠ j := by
      rintro rfl
      rw [hj] at hk
      cases hk
    exact ⟨k, c, (Function.update_of_ne hkj ..).trans hk, hc⟩
  · exact hb.tids
  · exact hb.pids.insert j hpid

theorem Balanced.addThread (hb : b.Balanced) (hi : b.threads i = none) (hj : b.accounts j = some a)
    (htid : ∀ k t, b.threads k = some t → t.tid ≠ tid) : (b.addThread i j a tid).Balanced := by
  constructor
  · rw [Ledger.addThread, toNat_succ hb.threads_le (by decide), hb.threads]
    simp [countSlots_fill, hi]
  · rw [Ledger.addThread, hb.processes]
    exact (countSlots_keep (by rw [hj]; rfl)).symm
  · intro k c hk
    obtain ⟨-, hc⟩ | ⟨hkj, hc⟩ := update_eq_some hk
    · rw [← Option.some.inj hc, toNat_succ (hb.live_le hj) (by decide), hb.live j a hj]
      exact (countSlots_fill (by rw [hi]; rfl) (by simp [belongsTo])).symm
    · have hother : a.pid ≠ c.pid := fun heq => hkj (hb.pids k j c a hc hj heq.symm)
      rw [hb.live k c hc]
      exact (countSlots_keep (by rw [hi]; simp [belongsTo, hother])).symm
  · intro k t hk
    apply owner_update (d := ⟨a.pid, a.liveThreads + 1⟩) hj rfl
    obtain ⟨-, ht⟩ | ⟨-, ht⟩ := update_eq_some hk
    · grind
    · exact hb.owner k t ht
  · exact hb.tids.insert i htid
  · exact hb.pids.replace hj rfl

theorem Balanced.removeThread (hb : b.Balanced) (hi : b.threads i = some t)
    (hj : b.accounts j = some a) (hpid : a.pid = t.pid) : (b.removeThread i j a).Balanced := by
  have hsome : (b.threads i).isSome = true := by rw [hi]; rfl
  have hmine : belongsTo a.pid (b.threads i) = true := by rw [hi]; simp [belongsTo, hpid]
  constructor
  · rw [Ledger.removeThread, toNat_pred (hb.threads_pos hi), hb.threads]
    exact (countSlots_clear hsome rfl).symm
  · rw [Ledger.removeThread, hb.processes]
    exact (countSlots_keep (by rw [hj]; rfl)).symm
  · intro k c hk
    obtain ⟨-, hc⟩ | ⟨hkj, hc⟩ := update_eq_some hk
    · rw [← Option.some.inj hc, toNat_pred (hb.live_pos hi hj hpid), hb.live j a hj]
      exact (countSlots_clear hmine rfl).symm
    · have hother : t.pid ≠ c.pid := fun heq => hkj (hb.pids k j c a hc hj (heq.symm.trans hpid.symm))
      rw [hb.live k c hc]
      exact (countSlots_keep (by rw [hi]; simp [belongsTo, hother])).symm
  · intro k u hk
    apply owner_update (d := ⟨a.pid, a.liveThreads - 1⟩) hj rfl
    obtain ⟨-, hu⟩ | ⟨-, hu⟩ := update_eq_some hk
    · cases hu
    · exact hb.owner k u hu
  · exact hb.tids.remove i
  · exact hb.pids.replace hj rfl

end Balance

end Ledger

end Wirth.Kernel.Scheduler

import Mathlib.Data.List.Basic
import Mathlib.Data.Nat.Basic

namespace Wirth.Lib

-- A disk of sectors, and programs that read and write it one sector at a time.

structure Sector where
  bytes : List UInt8
  length_eq : bytes.length = 512
  deriving DecidableEq

def Sector.ofBytes (bytes : List UInt8) : Sector :=
  ⟨bytes.take 512 ++ List.replicate (512 - bytes.length) 0, by
    grind⟩

def Sector.zero : Sector := .ofBytes []

abbrev Disk := Nat → Sector

structure Write where
  lba : Nat
  sector : Sector
  deriving DecidableEq

def Disk.apply (d : Disk) : List Write → Disk
  | [] => d
  | w :: ws => Disk.apply (Function.update d w.lba w.sector) ws

def Disk.bytes (d : Disk) : Nat → Nat → List UInt8
  | _, 0 => []
  | lba, count + 1 => (d lba).bytes ++ d.bytes (lba + 1) count

inductive Io (α : Type) where
  | done (a : α)
  | read (lba : Nat) (next : Option Sector → Io α)
  | write (lba : Nat) (sector : Sector) (next : Bool → Io α)

-- Which of the coming accesses fail. Where the lists end, all goes well.
structure Failures where
  reads : List Bool
  writes : List Bool

def Failures.none : Failures := ⟨[], []⟩

structure Outcome (α : Type) where
  result : α
  writes : List Write
  failures : Failures

namespace Io

variable {α β : Type}

def bind : Io α → (α → Io β) → Io β
  | done a, f => f a
  | read lba next, f => read lba fun sector => (next sector).bind f
  | write lba sector next, f => write lba sector fun ok => (next ok).bind f

instance : Monad Io where
  pure := done
  bind := bind

def readSector (lba : Nat) : Io (Option Sector) := read lba done

def writeSector (lba : Nat) (sector : Sector) : Io Bool := write lba sector done

def readSectors : Nat → Nat → Io (Option (List UInt8))
  | _, 0 => done (some [])
  | lba, count + 1 => do
      match ← readSector lba with
      | none => done none
      | some sector =>
          match ← readSectors (lba + 1) count with
          | none => done none
          | some rest => done (some (sector.bytes ++ rest))

-- What a program returns and what it writes, in order. A power failure leaves the disk with
-- the first few of these writes.
def exec : Io α → Disk → Failures → Outcome α
  | done a, _, failures => ⟨a, [], failures⟩
  | read lba next, d, failures =>
      (next (if failures.reads.headD false then none else some (d lba))).exec d
        { failures with reads := failures.reads.tail }
  | write lba sector next, d, failures =>
      if failures.writes.headD false then
        (next false).exec d { failures with writes := failures.writes.tail }
      else
        let rest := (next true).exec (Function.update d lba sector)
          { failures with writes := failures.writes.tail }
        { rest with writes := ⟨lba, sector⟩ :: rest.writes }

-- Whatever the accesses answer, the program writes to certain sectors only and returns such a
-- result.
def Meets (allowed : Nat → Prop) (Q : α → Prop) : Io α → Prop
  | done a => Q a
  | read _ next => ∀ sector, (next sector).Meets allowed Q
  | write lba _ next => allowed lba ∧ ∀ ok, (next ok).Meets allowed Q

end Io

theorem Sector.bytes_ofBytes (bytes : List UInt8) :
    (Sector.ofBytes bytes).bytes = bytes.take 512 ++ List.replicate (512 - bytes.length) 0 := rfl

theorem Sector.bytes_ofBytes_full {bytes : List UInt8} (h : bytes.length = 512) :
    (Sector.ofBytes bytes).bytes = bytes := by
  rw [bytes_ofBytes, h, Nat.sub_self, List.replicate_zero, List.append_nil,
    List.take_of_length_le (Nat.le_of_eq h)]

section Writes

variable {d : Disk} {ws vs : List Write}

@[simp] theorem Disk.apply_nil : d.apply [] = d := rfl

theorem Disk.apply_append : d.apply (ws ++ vs) = (d.apply ws).apply vs := by
  induction ws generalizing d with
  | nil => rfl
  | cons w ws ih => exact ih

theorem Disk.apply_other {lba : Nat} (h : ∀ w ∈ ws, w.lba ≠ lba) : d.apply ws lba = d lba := by
  induction ws generalizing d with
  | nil => rfl
  | cons w ws ih =>
    rw [Disk.apply, ih fun v hv => h v (List.mem_cons_of_mem _ hv),
      Function.update_of_ne (h w (by simp)).symm]

theorem Disk.bytes_congr {d' : Disk} {lba count : Nat}
    (h : ∀ i, lba ≤ i → i < lba + count → d' i = d i) : d'.bytes lba count = d.bytes lba count := by
  induction count generalizing lba with
  | zero => rfl
  | succ count ih =>
    rw [Disk.bytes, Disk.bytes, h lba (Nat.le_refl _) (by omega),
      ih fun i hlow hhigh => h i (by omega) (by omega)]

theorem Disk.bytes_length (lba count : Nat) : (d.bytes lba count).length = 512 * count := by
  induction count generalizing lba with
  | zero => rfl
  | succ count ih =>
    rw [Disk.bytes, List.length_append, (d lba).length_eq, ih]
    omega

-- What holds of the disk after each of the writes, and before the first.
def Disk.Throughout (P : Disk → Prop) (d : Disk) (ws : List Write) : Prop :=
  ∀ k, P (d.apply (ws.take k))

variable {P : Disk → Prop}

theorem Disk.throughout_nil (h : P d) : d.Throughout P [] := fun k => by simpa using h

theorem Disk.throughout_cons {w : Write} (h : P d)
    (hrest : Disk.Throughout P (Function.update d w.lba w.sector) ws) :
    d.Throughout P (w :: ws) := by
  intro k
  cases k with
  | zero => exact h
  | succ k => exact hrest k

theorem Disk.throughout_append (h : d.Throughout P ws) (hrest : (d.apply ws).Throughout P vs) :
    d.Throughout P (ws ++ vs) := by
  induction ws generalizing d with
  | nil => exact hrest
  | cons w ws ih => exact throughout_cons (h 0) (ih (fun k => h (k + 1)) hrest)

theorem Disk.Throughout.last (h : d.Throughout P ws) : P (d.apply ws) := by
  have := h ws.length
  rwa [List.take_length] at this

theorem Disk.throughout_of_frame {allowed : Nat → Prop} (hws : ∀ w ∈ ws, allowed w.lba)
    (hframe : ∀ d', (∀ lba, ¬allowed lba → d' lba = d lba) → P d') : d.Throughout P ws := by
  intro k
  grind [Disk.apply_other]

end Writes

namespace Io

variable {α β : Type}

@[simp] theorem done_bind (a : α) (f : α → Io β) : (done a >>= f) = f a := rfl

theorem exec_done (a : α) (d : Disk) (failures : Failures) : (done a).exec d failures = ⟨a, [], failures⟩ := rfl

theorem exec_bind (io : Io α) (f : α → Io β) (d : Disk) (failures : Failures) :
    (io >>= f).exec d failures =
      let first := io.exec d failures
      let second := (f first.result).exec (d.apply first.writes) first.failures
      { second with writes := first.writes ++ second.writes } := by
  induction io generalizing d failures with
  | done a => rfl
  | read lba next ih => exact ih _ d _
  | write lba sector next ih =>
    change (write lba sector fun ok => (next ok).bind f).exec d failures = _
    simp only [exec]
    split_ifs
    · exact ih false d _
    · have := ih true (Function.update d lba sector) { failures with writes := failures.writes.tail }
      change ((next true).bind f).exec _ _ = _ at this
      rw [this]
      rfl

section Meets

variable {allowed : Nat → Prop} {Q : α → Prop} {R : β → Prop} {io : Io α}

theorem Meets.bind {f : α → Io β} (h : io.Meets allowed Q) (hf : ∀ a, Q a → (f a).Meets allowed R) :
    (io >>= f).Meets allowed R := by
  induction io with
  | done a => exact hf a h
  | read lba next ih => exact fun sector => ih sector (h sector)
  | write lba sector next ih => exact ⟨h.1, fun ok => ih ok (h.2 ok)⟩

theorem Meets.mono {Q' : α → Prop} (h : io.Meets allowed Q) (hQ : ∀ a, Q a → Q' a) :
    io.Meets allowed Q' := by
  induction io with
  | done a => exact hQ a h
  | read lba next ih => exact fun sector => ih sector (h sector)
  | write lba sector next ih => exact ⟨h.1, fun ok => ih ok (h.2 ok)⟩

theorem Meets.exec (h : io.Meets allowed Q) (d : Disk) (failures : Failures) :
    (∀ w ∈ (io.exec d failures).writes, allowed w.lba) ∧ Q (io.exec d failures).result := by
  induction io generalizing d failures with
  | done a => exact ⟨fun w hw => absurd hw List.not_mem_nil, h⟩
  | read lba next ih => exact ih _ (h _) d _
  | write lba sector next ih =>
    simp only [Io.exec]
    split_ifs
    · exact ih false (h.2 false) d _
    · obtain ⟨hrest, hresult⟩ := ih true (h.2 true) (Function.update d lba sector)
        { failures with writes := failures.writes.tail }
      refine ⟨fun w hw => ?_, hresult⟩
      rcases List.mem_cons.mp hw with rfl | hw
      · exact h.1
      · exact hrest w hw

theorem readSectors_meets (lba count : Nat) :
    (readSectors lba count).Meets allowed fun _ => True := by
  induction count generalizing lba with
  | zero => trivial
  | succ count ih =>
    refine fun sector => ?_
    cases sector with
    | none => trivial
    | some sector =>
      refine (ih (lba + 1)).bind fun rest _ => ?_
      cases rest <;> trivial

end Meets

theorem exec_readSectors (lba count : Nat) (d : Disk) :
    (readSectors lba count).exec d .none = ⟨some (d.bytes lba count), [], .none⟩ := by
  induction count generalizing lba with
  | zero => rfl
  | succ count ih =>
    change ((readSectors (lba + 1) count >>= _).exec d .none) = _
    rw [exec_bind, ih]
    rfl

end Io

end Wirth.Lib

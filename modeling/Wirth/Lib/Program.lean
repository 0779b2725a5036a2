import Wirth.Lib.Device
import Wirth.Lib.Ended

namespace Wirth.Lib

def Program (α : Type) : Type := Io (Ended α)

namespace Program

variable {α β : Type}

def ended (x : Ended α) : Program α := Io.done x

def device (io : Io α) : Program α := Io.bind io fun a => Io.done (.returned a)

def andThen (f : α → Program β) : Ended α → Program β
  | .returned a => f a
  | .diverges => ended .diverges
  | .faults => ended .faults

def bind (p : Program α) (f : α → Program β) : Program β := Io.bind p (andThen f)

instance : Monad Program where
  pure a := ended (.returned a)
  bind := bind

def exec (p : Program α) (d : Disk) (failures : Failures) : Outcome (Ended α) := Io.exec p d failures

theorem exec_ended (x : Ended α) (d : Disk) (failures : Failures) :
    (ended x).exec d failures = ⟨x, [], failures⟩ := rfl

@[simp] theorem ended_bind (a : α) (f : α → Program β) : (ended (.returned a) >>= f) = f a := rfl

@[simp] theorem pure_bind (a : α) (f : α → Program β) : ((pure a : Program α) >>= f) = f a := rfl

theorem exec_device (io : Io α) (d : Disk) (failures : Failures) :
    (device io).exec d failures = { io.exec d failures with result := .returned (io.exec d failures).result } := by
  change (io >>= fun a => Io.done (Ended.returned a)).exec d failures = _
  rw [Io.exec_bind]
  simp only [Io.exec_done, List.append_nil]

variable {p : Program α} {f : α → Program β} {d : Disk} {failures left : Failures} {a : α}
  {ws : List Write}

theorem exec_bind (h : p.exec d failures = ⟨.returned a, ws, left⟩) :
    (p >>= f).exec d failures =
      { (f a).exec (d.apply ws) left with writes := ws ++ ((f a).exec (d.apply ws) left).writes } := by
  have hexec : Io.exec p d failures = ⟨.returned a, ws, left⟩ := h
  have hbind := Io.exec_bind p (andThen f) d failures
  rw [hexec] at hbind
  exact hbind

theorem exec_bind_read (h : p.exec d failures = ⟨.returned a, [], left⟩) :
    (p >>= f).exec d failures = (f a).exec d left := by
  rw [exec_bind h, Disk.apply_nil]
  rfl

theorem exec_bind_diverges (h : p.exec d failures = ⟨.diverges, ws, left⟩) :
    (p >>= f).exec d failures = ⟨.diverges, ws, left⟩ := by
  have hexec : Io.exec p d failures = ⟨.diverges, ws, left⟩ := h
  have hbind := Io.exec_bind p (andThen f) d failures
  rw [hexec] at hbind
  refine hbind.trans ?_
  simp only [andThen, ended, Io.exec_done, List.append_nil]

-- The program reads the disk but does not write it, and ends with such a result whatever fails.
def Yields (d : Disk) (Q : α → Prop) (p : Program α) : Prop :=
  ∀ failures, ∃ a left, p.exec d failures = ⟨.returned a, [], left⟩ ∧ Q a

section Yields

variable {d : Disk} {Q : α → Prop} {R : β → Prop}

theorem yields_pure {a : α} (h : Q a) : Yields d Q (pure a) :=
  fun failures => ⟨a, failures, rfl, h⟩

theorem yields_ended {x : Ended α} (h : ∃ a, x = .returned a ∧ Q a) : Yields d Q (ended x) := by
  obtain ⟨a, rfl, ha⟩ := h
  exact fun failures => ⟨a, failures, rfl, ha⟩

theorem Yields.bind {p : Program α} {f : α → Program β} (h : Yields d Q p)
    (hf : ∀ a, Q a → Yields d R (f a)) : Yields d R (p >>= f) := by
  intro failures
  obtain ⟨a, left, hexec, ha⟩ := h failures
  obtain ⟨b, rest, hrest, hb⟩ := hf a ha left
  grind [exec_bind_read]

theorem yields_device {io : Io α}
    (h : ∀ failures, ∃ a left, io.exec d failures = ⟨a, [], left⟩ ∧ Q a) : Yields d Q (device io) := by
  intro failures
  obtain ⟨a, left, hexec, ha⟩ := h failures
  simp [exec_device, ha, hexec]

theorem yields_readSectors (lba count : Nat) : Yields d
    (fun r => ∀ bytes, r = some bytes → bytes = d.bytes lba count)
    (device (Io.readSectors lba count)) := by
  refine yields_device fun failures => ?_
  induction count generalizing lba failures with
  | zero => exact ⟨some [], failures, rfl, fun bytes h => (Option.some.inj h).symm⟩
  | succ count ih =>
    have hread : (Io.readSector lba).exec d failures =
        ⟨if failures.reads.headD false then none else some (d lba), [],
          { failures with reads := failures.reads.tail }⟩ := rfl
    rw [Io.readSectors, Io.exec_bind, hread]
    cases failures.reads.headD false with
    | true => exact ⟨none, _, rfl, fun bytes h => by cases h⟩
    | false =>
      obtain ⟨r, left, hrest, hr⟩ := ih (lba + 1) { failures with reads := failures.reads.tail }
      simp only [Bool.false_eq_true, if_false, Disk.apply_nil, List.nil_append]
      rw [Io.exec_bind, hrest]
      cases r with
      | none => exact ⟨none, left, rfl, fun bytes h => by cases h⟩
      | some rest =>
        refine ⟨some ((d lba).bytes ++ rest), left, rfl, fun bytes h => ?_⟩
        grind [Disk.bytes]

end Yields

-- Whatever the disk answers, the program writes to certain sectors only, and what it returns, if
-- it does, is such.
def Meets (allowed : Nat → Prop) (Q : α → Prop) (p : Program α) : Prop :=
  Io.Meets allowed (fun x => ∀ a, x = .returned a → Q a) p

section Meets

variable {allowed : Nat → Prop} {Q : α → Prop} {R : β → Prop} {p : Program α}

theorem meets_pure {a : α} (h : Q a) : Meets allowed Q (pure a) := by
  rintro b ⟨⟩
  exact h

theorem meets_ended {x : Ended α} (h : ∀ a, x = .returned a → Q a) : Meets allowed Q (ended x) := h

theorem meets_device {io : Io α} (h : io.Meets allowed Q) : Meets allowed Q (device io) :=
  Io.Meets.bind h fun a ha => by
    rintro b ⟨⟩
    exact ha

theorem Meets.bind {f : α → Program β} (h : Meets allowed Q p)
    (hf : ∀ a, Q a → Meets allowed R (f a)) : Meets allowed R (p >>= f) := by
  refine Io.Meets.bind h fun x hx => ?_
  cases x with
  | returned a => exact hf a (hx a rfl)
  | diverges => exact fun b hb => by cases hb
  | faults => exact fun b hb => by cases hb

theorem Meets.mono {Q' : α → Prop} (h : Meets allowed Q p) (hQ : ∀ a, Q a → Q' a) :
    Meets allowed Q' p := Io.Meets.mono h fun _ hx a ha => hQ a (hx a ha)

theorem Meets.exec (h : Meets allowed Q p) (d : Disk) (failures : Failures) :
    (∀ w ∈ (p.exec d failures).writes, allowed w.lba) ∧
      ∀ a, (p.exec d failures).result = .returned a → Q a := Io.Meets.exec h d failures

end Meets

end Program

end Wirth.Lib

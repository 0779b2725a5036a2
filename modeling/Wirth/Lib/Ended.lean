import Mathlib.Logic.Basic

namespace Wirth.Lib

-- How a call of the kernel may end: it returns, it goes on forever, or the processor stops
-- it at an access to memory that is not its own.
inductive Ended (α : Type) where
  | returned (a : α)
  | diverges
  | faults
  deriving DecidableEq

namespace Ended

variable {α β : Type}

def bind (x : Ended α) (f : α → Ended β) : Ended β :=
  match x with
  | returned a => f a
  | diverges => diverges
  | faults => faults

instance : Monad Ended where
  pure := returned
  bind := bind

@[simp] theorem returned_bind (a : α) (f : α → Ended β) : (returned a >>= f) = f a := rfl

theorem assoc {γ : Type} (x : Ended α) (f : α → Ended β) (g : β → Ended γ) :
    (x >>= f >>= g) = x >>= fun a => f a >>= g := by
  cases x <;> rfl

theorem bind_eq_returned {x : Ended α} {f : α → Ended β} {b : β} :
    (x >>= f) = returned b ↔ ∃ a, x = returned a ∧ f a = returned b := by
  constructor
  · intro h
    cases x with
    | returned a => exact ⟨a, rfl, h⟩
    | diverges | faults => cases h
  · rintro ⟨a, rfl, h⟩
    exact h

def isFault : Ended α → Bool
  | faults => true
  | _ => false

theorem isFault_iff {x : Ended α} : x.isFault = true ↔ x = faults := by
  cases x <;> simp [isFault]

end Ended

end Wirth.Lib

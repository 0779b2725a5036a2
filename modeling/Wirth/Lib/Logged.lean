import Mathlib.Logic.Basic
import Mathlib.Tactic.SplitIfs

namespace Wirth.Lib

structure Logged (E α : Type) where
  value : α
  events : List E

namespace Logged

variable {E α β : Type}

def bind (x : Logged E α) (f : α → Logged E β) : Logged E β :=
  ⟨(f x.value).value, x.events ++ (f x.value).events⟩

instance : Monad (Logged E) where
  pure a := ⟨a, []⟩
  bind := bind

def tell (es : List E) : Logged E Unit := ⟨(), es⟩

def Always (p : E → Prop) (x : Logged E α) : Prop := ∀ e ∈ x.events, p e

section Always

variable {p q : E → Prop} {x y : Logged E α} {f : α → Logged E β}

@[simp] theorem value_pure (a : α) : (pure a : Logged E α).value = a := rfl

@[simp] theorem events_pure (a : α) : (pure a : Logged E α).events = [] := rfl

@[simp] theorem value_bind (x : Logged E α) (f : α → Logged E β) :
    (x >>= f).value = (f x.value).value := rfl

@[simp] theorem events_bind (x : Logged E α) (f : α → Logged E β) :
    (x >>= f).events = x.events ++ (f x.value).events := rfl

@[simp] theorem always_pure (a : α) : Always p (pure a : Logged E α) := nofun

@[simp] theorem always_tell (es : List E) : Always p (tell es) ↔ ∀ e ∈ es, p e := Iff.rfl

@[simp] theorem always_bind : Always p (x >>= f) ↔ Always p x ∧ Always p (f x.value) := by
  simp only [Always, events_bind, List.mem_append, or_imp, forall_and]

end Always

end Logged

end Wirth.Lib

import Mathlib.Data.List.Basic

namespace Wirth.Lib

-- The two ways in which a computation stops early. A thrown exception carries
-- its text. An access outside the object it names has no defined outcome, so
-- nothing may be concluded about what follows it.
inductive Fault where
  | thrown (what : List UInt8)
  | outOfBounds
  deriving DecidableEq

abbrev Result := Except Fault

variable {α β σ : Type}

theorem bind_eq_ok {x : Result α} {f : α → Result β} {b : β} :
    (x >>= f) = .ok b ↔ ∃ a, x = .ok a ∧ f a = .ok b := by
  cases x with
  | error e => simp [bind, Except.bind]
  | ok a => simp [bind, Except.bind]

variable {p : Prop} {x : Result α} {f : α → Result β} {items : List α}

theorem map_eq_ok {f : α → β} {b : β} :
    (f <$> x) = .ok b ↔ ∃ a, x = .ok a ∧ f a = b := by
  cases x with
  | error e => simp [Functor.map, Except.map]
  | ok a => simp [Functor.map, Except.map]

@[simp] theorem ok_bind (a : α) (f : α → Result β) : (Except.ok a >>= f) = f a := rfl

@[simp] theorem error_bind (e : Fault) (f : α → Result β) :
    (Except.error e >>= f) = Except.error e := rfl

theorem ite_error_eq_ok [Decidable p] {e : Fault} {x : Result α} {a : α} :
    (if p then Except.error e else x) = .ok a ↔ ¬p ∧ x = .ok a := by
  by_cases h : p <;> simp [h]

theorem ite_ok_error_eq_ok [Decidable p] {e : Fault} {x a : α} :
    (if p then Except.ok x else Except.error e) = .ok a ↔ p ∧ x = a := by
  by_cases h : p <;> simp [h]

theorem foldlM_invariant (step : σ → α → Result σ) (P : σ → Prop) (items : List α)
    (hstep : ∀ s, ∀ a ∈ items, ∀ s', P s → step s a = .ok s' → P s')
    {s s' : σ} (hs : P s) (hrun : items.foldlM step s = .ok s') : P s' := by
  induction items generalizing s with
  | nil =>
    cases hrun
    exact hs
  | cons a rest ih =>
    grind [bind_eq_ok]

-- A loop whose iterations either go on or throw, and go on exactly at the items of a kind,
-- ends normally exactly when all items are of that kind.
theorem foldlM_ok_or_thrown (step : σ → α → Result σ) (P : σ → Prop) (C : α → Prop)
    {items : List α} (hok : ∀ s, ∀ a ∈ items, P s → C a → ∃ s', step s a = .ok s' ∧ P s')
    (hthrow : ∀ s, ∀ a ∈ items, P s → ¬C a → ∃ what, step s a = .error (.thrown what))
    {s : σ} (hs : P s) :
    (∀ a ∈ items, C a) ∧ (∃ s', items.foldlM step s = .ok s') ∨
      ¬(∀ a ∈ items, C a) ∧ ∃ what, items.foldlM step s = .error (.thrown what) := by
  induction items generalizing s with
  | nil => exact Or.inl ⟨by simp, s, rfl⟩
  | cons a rest ih =>
    by_cases ha : C a
    · obtain ⟨mid, hmid, hP⟩ := hok s a (by simp) hs ha
      grind [ok_bind]
    grind [error_bind]

theorem foldlM_append_eq_ok (step : σ → α → Result σ) (front back : List α) {s s' : σ} :
    (front ++ back).foldlM step s = .ok s' ↔
      ∃ mid, front.foldlM step s = .ok mid ∧ back.foldlM step mid = .ok s' := by
  rw [List.foldlM_append, bind_eq_ok]

theorem foldlM_take_eq_ok (step : σ → α → Result σ) (items : List α) (k : Nat) {s s' : σ}
    (hrun : items.foldlM step s = .ok s') :
    ∃ mid, (items.take k).foldlM step s = .ok mid ∧ (items.drop k).foldlM step mid = .ok s' := by
  grind [List.take_append_drop, foldlM_append_eq_ok]

def Faults (x : Result α) : Prop := x = .error .outOfBounds

@[simp] theorem not_faults_ok (a : α) : ¬Faults (.ok a : Result α) := by simp [Faults]

@[simp] theorem not_faults_thrown (what : List UInt8) :
    ¬Faults (.error (.thrown what) : Result α) := by simp [Faults]

@[simp] theorem faults_outOfBounds : Faults (.error .outOfBounds : Result α) := rfl

theorem faults_bind :
    Faults (x >>= f) ↔ Faults x ∨ ∃ a, x = .ok a ∧ Faults (f a) := by
  cases x with
  | error e => simp [Faults]
  | ok a => simp [Faults]

theorem not_faults_mapM (h : ∀ a ∈ items, ¬Faults (f a)) :
    ¬Faults (items.mapM f) := by
  induction items with
  | nil => exact not_faults_ok []
  | cons a rest ih =>
    rw [List.mapM_cons, faults_bind]
    rintro (ha | ⟨b, _, hb⟩)
    · exact h a (by simp) ha
    · rw [faults_bind] at hb
      rcases hb with hb | ⟨bs, _, hb⟩
      · grind
      · exact not_faults_ok _ hb

theorem mem_of_mapM_eq_ok {out : List β}
    (h : items.mapM f = .ok out) : ∀ b ∈ out, ∃ a ∈ items, f a = .ok b := by
  induction items generalizing out with
  | nil =>
    cases h
    simp
  | cons a rest ih =>
    simp only [List.mapM_cons, bind_eq_ok] at h
    obtain ⟨b, hb, bs, hbs, h⟩ := h
    cases h
    grind

-- The computation does not fault, and what it returns, if it does, is such.
def Safely (x : Result α) (Q : α → Prop) : Prop := ¬Faults x ∧ ∀ a, x = .ok a → Q a

section Safely

variable {Q Q' : α → Prop} {R : β → Prop}

theorem safely_ok {a : α} (h : Q a) : Safely (.ok a) Q := by
  refine ⟨not_faults_ok a, ?_⟩
  rintro b ⟨⟩
  exact h

theorem safely_thrown (what : List UInt8) : Safely (.error (.thrown what)) Q :=
  ⟨not_faults_thrown what, fun a h => by cases h⟩

theorem Safely.bind {x : Result α} {f : α → Result β} (h : Safely x Q) (hf : ∀ a, Q a → Safely (f a) R) :
    Safely (x >>= f) R := by
  constructor
  · rw [faults_bind]
    rintro (hx | ⟨a, ha, hfault⟩)
    · exact h.1 hx
    · exact (hf a (h.2 a ha)).1 hfault
  · intro b hb
    obtain ⟨a, ha, hb⟩ := bind_eq_ok.mp hb
    exact (hf a (h.2 a ha)).2 b hb

theorem Safely.mono {x : Result α} (h : Safely x Q) (hQ : ∀ a, Q a → Q' a) : Safely x Q' :=
  ⟨h.1, fun a ha => hQ a (h.2 a ha)⟩

theorem safely_foldlM {step : σ → α → Result σ} {P : σ → Prop} {items : List α}
    (hstep : ∀ s, ∀ a ∈ items, P s → Safely (step s a) P) {s : σ} (hs : P s) :
    Safely (items.foldlM step s) P := by
  induction items generalizing s with
  | nil => exact safely_ok hs
  | cons a rest ih =>
    refine (hstep s a (by simp) hs).bind fun mid hmid => ?_
    grind

end Safely

end Wirth.Lib

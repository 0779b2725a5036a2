import Wirth.Lib.Logged

namespace Wirth.Lib

-- A computation on a state that logs what it does and may stop for a reason.
def Job (E X S α : Type) : Type := S → Logged E (Except X α × S)

namespace Job

variable {E X S α β : Type}

def bind (j : Job E X S α) (f : α → Job E X S β) : Job E X S β := fun s =>
  match (j s).value with
  | (.ok a, t) => ⟨(f a t).value, (j s).events ++ (f a t).events⟩
  | (.error x, t) => ⟨(.error x, t), (j s).events⟩

instance : Monad (Job E X S) where
  pure a := fun s => pure (.ok a, s)
  bind := bind

def stop (x : X) : Job E X S α := fun s => pure (.error x, s)

def stopIf (c : Prop) [Decidable c] (x : X) : Job E X S Unit := if c then stop x else pure ()

-- The job comes to its end: what it returns, the state it leaves and what it has done.
def Ends (j : Job E X S α) (s : S) (a : α) (t : S) (es : List E) : Prop := j s = ⟨(.ok a, t), es⟩

def Stops (j : Job E X S α) (s : S) (x : X) : Prop := ∃ t es, j s = ⟨(.error x, t), es⟩

section Rules

variable {j : Job E X S α} {f : α → Job E X S β} {s t u : S} {a : α} {b : β} {x : X} {p : E → Prop}
  {es : List E}

theorem ends_pure {r : α} : Ends (pure a : Job E X S α) s r t es ↔ r = a ∧ t = s ∧ es = [] := by
  constructor
  · intro h
    cases h
    exact ⟨rfl, rfl, rfl⟩
  · rintro ⟨rfl, rfl, rfl⟩
    rfl

theorem not_ends_stop : ¬Ends (stop x : Job E X S α) s a t es := by
  intro h
  cases h

variable {c : Prop} {ds : List E}

theorem ends_stopIf [Decidable c] {r : Unit} :
    Ends (stopIf c x : Job E X S Unit) s r t es ↔ ¬c ∧ t = s ∧ es = [] := by
  rw [stopIf]
  by_cases hc : c
  · simp [not_ends_stop, hc]
  simp [ends_pure, hc]

theorem bind_ok (h : Ends j s a t ds) :
    (j >>= f) s = ⟨(f a t).value, ds ++ (f a t).events⟩ := by
  change bind j f s = _
  rw [bind, h]

theorem bind_error (h : j s = ⟨(.error x, t), ds⟩) :
    (j >>= f) s = ⟨(.error x, t), ds⟩ := by
  change bind j f s = _
  rw [bind, h]

theorem ends_or_stops (j : Job E X S α) (s : S) :
    (∃ a t es, Ends j s a t es) ∨ ∃ x, Stops j s x := by
  rcases h : j s with ⟨⟨_ | _, t⟩, es⟩
  · exact .inr ⟨_, t, es, h⟩
  · exact .inl ⟨_, t, es, h⟩

theorem Ends.not_stops {y : X} (h : Ends j s a t es) : ¬Stops j s y := by
  rintro ⟨t', es', h'⟩
  rw [Ends, h'] at h
  cases h

theorem Ends.unique {a' : α} {t' : S} {es' : List E} (h : Ends j s a t es) (h' : Ends j s a' t' es') :
    a' = a ∧ t' = t ∧ es' = es := by
  grind [Ends]

theorem ends_of_value (h : (j s).value.1 = .ok a) : Ends j s a (j s).value.2 (j s).events := by
  rw [Ends, ← h]

theorem not_stops_pure : ¬Stops (pure a : Job E X S α) s x := by
  rintro ⟨t, es, h⟩
  cases h

theorem stops_stopIf [Decidable c] {y : X} :
    Stops (stopIf c x : Job E X S Unit) s y ↔ c ∧ y = x := by
  rw [stopIf]
  by_cases hc : c
  · rw [if_pos hc]
    constructor
    · rintro ⟨t, es, h⟩
      cases h
      exact ⟨hc, rfl⟩
    · rintro ⟨-, rfl⟩
      exact ⟨s, [], rfl⟩
  · rw [if_neg hc]
    exact ⟨fun h => absurd h not_stops_pure, fun h => absurd h.1 hc⟩

theorem ends_bind : Ends (j >>= f) s b u es ↔
    ∃ a t ds ds', Ends j s a t ds ∧ Ends (f a) t b u ds' ∧ es = ds ++ ds' := by
  constructor
  · intro h
    obtain ⟨a, t, ds, hj⟩ | ⟨x, t, ds, hj⟩ := ends_or_stops j s
    · rw [Ends, bind_ok hj] at h
      obtain ⟨hvalue, hevents⟩ := Logged.mk.inj h
      refine ⟨a, t, ds, (f a t).events, hj, ?_, hevents.symm⟩
      rw [Ends, ← hvalue]
    · rw [Ends, bind_error hj] at h
      cases h
  · rintro ⟨a, t, ds, ds', hj, hf, rfl⟩
    rw [Ends, bind_ok hj, hf]

theorem stops_bind : Stops (j >>= f) s x ↔
    Stops j s x ∨ ∃ a t ds, Ends j s a t ds ∧ Stops (f a) t x := by
  obtain ⟨a, t, ds, hj⟩ | ⟨y, t, ds, hj⟩ := ends_or_stops j s
  · constructor
    · rintro ⟨u, es, h⟩
      rw [bind_ok hj] at h
      obtain ⟨hvalue, hevents⟩ := Logged.mk.inj h
      refine .inr ⟨a, t, ds, hj, u, (f a t).events, ?_⟩
      rw [← hvalue]
    · rintro (h | ⟨a', t', ds', hj', u, es, h⟩)
      · exact absurd h hj.not_stops
      · simpa using ⟨u, ds' ++ es, by rw [bind_ok hj', h]⟩
  · constructor
    · rintro ⟨u, es, h⟩
      rw [bind_error hj] at h
      cases h
      exact .inl ⟨t, ds, hj⟩
    · rintro (⟨u, es, h⟩ | ⟨a', t', ds', hj', -⟩)
      · exact ⟨u, es, bind_error h⟩
      · exact absurd ⟨t, ds, hj⟩ hj'.not_stops

theorem always_bind : Logged.Always p ((j >>= f) s) ↔
    Logged.Always p (j s) ∧ ∀ a t ds, Ends j s a t ds → Logged.Always p (f a t) := by
  obtain ⟨a, t, ds, hj⟩ | ⟨x, t, ds, hj⟩ := ends_or_stops j s
  · have hj' : j s = ⟨(.ok a, t), ds⟩ := hj
    rw [bind_ok hj, hj']
    simp only [Logged.Always, List.mem_append, or_imp, forall_and]
    refine and_congr_right fun _ => ⟨?_, fun h => h a t ds hj⟩
    rintro h a' t' ds' hj''
    rw [Ends, hj'] at hj''
    cases hj''
    exact h
  · rw [bind_error hj, hj]
    refine ⟨fun h => ⟨h, ?_⟩, fun h => h.1⟩
    simp [Ends, hj]

-- What follows a part that is known to end.

theorem Ends.ends_bind (h : Ends j s a t ds) : Ends (j >>= f) s b u es ↔
    ∃ ds', Ends (f a) t b u ds' ∧ es = ds ++ ds' := by
  rw [Job.ends_bind]
  constructor
  · rintro ⟨a', t', ds', ds'', h', hf, rfl⟩
    obtain ⟨rfl, rfl, rfl⟩ := h.unique h'
    exact ⟨ds'', hf, rfl⟩
  grind

theorem Ends.stops_bind (h : Ends j s a t ds) :
    Stops (j >>= f) s x ↔ Stops (f a) t x := by
  rw [Job.stops_bind]
  constructor
  · rintro (h' | ⟨a', t', ds', h', hf⟩)
    · exact absurd h' h.not_stops
    · obtain ⟨rfl, rfl, rfl⟩ := h.unique h'
      exact hf
  · intro hf
    exact .inr ⟨a, t, ds, h, hf⟩

theorem Ends.always (h : Ends j s a t es) : Logged.Always p (j s) ↔ ∀ e ∈ es, p e := by
  rw [h, Logged.Always]

theorem Ends.always_bind (h : Ends j s a t ds) :
    Logged.Always p ((j >>= f) s) ↔ (∀ e ∈ ds, p e) ∧ Logged.Always p (f a t) := by
  rw [Job.always_bind, h.always]
  refine and_congr_right fun _ => ⟨fun hf => hf a t ds h, ?_⟩
  rintro hf a' t' ds' h'
  obtain ⟨rfl, rfl, rfl⟩ := h.unique h'
  exact hf

theorem always_pure (a : α) (s : S) : Logged.Always p ((pure a : Job E X S α) s) := nofun

theorem always_stop (x : X) (s : S) : Logged.Always p ((stop x : Job E X S α) s) := nofun

theorem always_stopIf [Decidable c] (x : X) (s : S) :
    Logged.Always p ((stopIf c x : Job E X S Unit) s) := by
  rw [stopIf]
  grind [always_stop, always_pure]

end Rules

end Job

end Wirth.Lib

import Mathlib.Data.Fintype.EquivFin

namespace Wirth.Lib

-- Walks from place to place, where each place says which one comes next.
namespace Walk

variable {α : Type}

def Leads (next : α → Option α) (a b : α) : Prop := next a = some b

abbrev Reaches (next : α → Option α) : α → α → Prop := Relation.ReflTransGen (Leads next)

def Returns (next : α → Option α) (a : α) : Prop := Relation.TransGen (Leads next) a a

-- A walk that comes to an end: the places that it goes on from, in order, and the last one.
inductive Visits (next : α → Option α) : α → List α → α → Prop where
  | last {a : α} (h : next a = none) : Visits next a [] a
  | step {a b z : α} {l : List α} (h : next a = some b) (rest : Visits next b l z) : Visits next a (a :: l) z

variable {next : α → Option α} {a b z z' : α} {l l' : List α}

theorem Visits.last_eq_none (h : Visits next a l z) : next z = none := by
  induction h with
  | last hnone => exact hnone
  | step _ _ ih => exact ih

theorem Visits.unique (h : Visits next a l z) (h' : Visits next a l' z') : l = l' ∧ z = z' := by
  induction h generalizing l' with
  | last hnone =>
    cases h' with
    | last _ => exact ⟨rfl, rfl⟩
    | step hsome _ => cases hnone.symm.trans hsome
  | step hsome _ ih =>
    cases h' with
    | last hnone => cases hnone.symm.trans hsome
    | step hsome' hrest =>
      grind

theorem Visits.reaches_iff (h : Visits next a l z) : Reaches next a b ↔ b ∈ l ∨ b = z := by
  induction h with
  | @last a hnone =>
    constructor
    · intro hreach
      rcases hreach.cases_head with rfl | ⟨c, hc, -⟩
      · exact .inr rfl
      · cases hnone.symm.trans hc
    grind
  | @step a c z l hsome _ ih =>
    rw [List.mem_cons, or_assoc, ← ih]
    constructor
    · intro hreach
      rcases hreach.cases_head with rfl | ⟨d, hd, hrest⟩
      · exact .inl rfl
      · cases hsome.symm.trans hd
        exact .inr hrest
    · rintro (rfl | hreach)
      · exact .refl
      · exact .head hsome hreach

theorem Visits.isSome_of_mem (h : Visits next a l z) (hb : b ∈ l) : next b ≠ none := by
  induction h with
  | last _ => cases hb
  | step hsome _ ih =>
    grind

theorem Visits.later (h : Visits next a l z) (hlater : Relation.TransGen (Leads next) a b) :
    ∃ l', Visits next b l' z ∧ l'.length < l.length := by
  induction h with
  | last hnone =>
    obtain ⟨c, hc, -⟩ := Relation.TransGen.head'_iff.mp hlater
    cases hnone.symm.trans hc
  | @step a c z l hsome hrest ih =>
    obtain ⟨d, hd, hreach⟩ := Relation.TransGen.head'_iff.mp hlater
    cases hsome.symm.trans hd
    grind

theorem Visits.not_returns (h : Visits next a l z) : ¬Returns next a := by
  intro hreturns
  obtain ⟨l', hl', hlt⟩ := h.later hreturns
  rw [(hl'.unique h).1] at hlt
  exact Nat.lt_irrefl _ hlt

-- Among finitely many places only coming back to one of them keeps a walk from ending.
theorem exists_visits_iff [Finite α] :
    (∃ l z, Visits next a l z) ↔ ∀ b, Reaches next a b → ¬Returns next b := by
  constructor
  · rintro ⟨l, z, hl⟩ b hreach
    rcases Relation.reflTransGen_iff_eq_or_transGen.mp hreach with rfl | hlater
    · exact hl.not_returns
    · obtain ⟨l', hl', -⟩ := hl.later hlater
      exact hl'.not_returns
  · intro h
    let After (x y : { b // Reaches next a b }) : Prop := Relation.TransGen (Leads next) y.1 x.1
    have hirrefl : Std.Irrefl After := ⟨fun x => h x.1 x.2⟩
    have hwell : WellFounded After := Finite.wellFounded_of_trans_of_irrefl After
    -- the places that come later have finite walks already
    have hall : ∀ x : { b // Reaches next a b }, ∃ l z, Visits next x.1 l z := by
      intro x
      induction x using hwell.induction with
      | _ x ih =>
        cases hnext : next x.1 with
        | none => exact ⟨[], x.1, .last hnext⟩
        | some c =>
          obtain ⟨l, z, hl⟩ := ih ⟨c, x.2.tail hnext⟩ (.single hnext)
          exact ⟨_, z, .step hnext hl⟩
    exact hall ⟨a, .refl⟩

end Walk

end Wirth.Lib

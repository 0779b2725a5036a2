import Mathlib.Data.Finset.Max
import Wirth.Lib.Buffer

namespace Wirth.Lib

-- Halfword fields of a byte vector, rewritten one after another. An update names a
-- position and gives the new halfword from the old one.
abbrev Update := Int × (Int → Int)

def update (v : List UInt8) (u : Update) : Result (List UInt8) := do
  storeU16 v u.1 (u.2 (← loadU16 v u.1))

def updates (v : List UInt8) (us : List Update) : Result (List UInt8) := us.foldlM update v

def InField (j : Nat) (i : Int) : Prop := i ≤ j ∧ j < i + 2

def Apart (i j : Int) : Prop := i + 2 ≤ j ∨ j + 2 ≤ i

theorem Apart.symm {i j : Int} (h : Apart i j) : Apart j i := Or.symm h

variable {v w : List UInt8} {u : Update}

theorem update_eq_ok :
    update v u = .ok w ↔ storeU16 v u.1 (u.2 (u16At v u.1.toNat)) = .ok w := by
  simp only [update, bind_eq_ok, loadU16_eq_ok]
  constructor
  · rintro ⟨x, ⟨_, rfl⟩, h⟩
    exact h
  · intro h
    exact ⟨_, ⟨(storeU16_eq_ok.mp h).1, rfl⟩, h⟩

theorem storeU16_eq_update (v : List UInt8) (i x : Int) :
    storeU16 v i x = update v (i, fun _ => x) := by
  by_cases hi : 0 ≤ i ∧ i + 1 < v.length
  · have hload : loadU16 v i = .ok (u16At v i.toNat : Int) := loadU16_eq_ok.mpr ⟨hi, rfl⟩
    rw [update, hload, ok_bind]
  · unfold update storeU16 loadU16 load store
    by_cases h0 : 0 ≤ i ∧ i < v.length
    · have h1 : ¬(0 ≤ i + 1 ∧ i + 1 < v.length) := by omega
      simp [if_pos h0, if_neg h1]
    · simp [if_neg h0]

theorem update_length (h : update v u = .ok w) :
    w.length = v.length :=
  storeU16_length (update_eq_ok.mp h)

theorem update_range (h : update v u = .ok w) :
    0 ≤ u.1 ∧ u.1 + 2 ≤ v.length := by
  have := (storeU16_eq_ok.mp (update_eq_ok.mp h)).1
  omega

theorem update_ok (h : 0 ≤ u.1 ∧ u.1 + 2 ≤ v.length) :
    ∃ w, update v u = .ok w :=
  ⟨_, update_eq_ok.mpr (storeU16_eq_ok.mpr ⟨by omega, rfl⟩)⟩

theorem update_faults :
    Faults (update v u) ↔ ¬(0 ≤ u.1 ∧ u.1 + 2 ≤ v.length) := by
  grind [update, faults_bind, loadU16_faults, storeU16_faults]

theorem update_getD (h : update v u = .ok w) {j : Nat}
    (hj : ¬InField j u.1) : w.getD j 0 = v.getD j 0 := by
  unfold InField at hj
  exact storeU16_getD_of_ne (update_eq_ok.mp h) (by omega) (by omega)

theorem update_u16At_apart (h : update v u = .ok w) {j : Int}
    (h0 : 0 ≤ j) (hj : Apart u.1 j) : u16At w j.toNat = u16At v j.toNat := by
  unfold Apart at hj
  exact storeU16_u16At_of_disjoint (update_eq_ok.mp h) (by omega)

theorem update_u16At (h : update v u = .ok w) :
    (u16At w u.1.toNat : Int) = u.2 (u16At v u.1.toNat) % 65536 :=
  storeU16_u16At (update_eq_ok.mp h)

section Updates

variable {v w : List UInt8} {us : List Update}

theorem updates_cons_eq_ok {u : Update} : updates v (u :: us) = .ok w ↔
    ∃ mid, update v u = .ok mid ∧ updates mid us = .ok w := by
  rw [updates, List.foldlM_cons, bind_eq_ok]
  rfl

theorem updates_length (h : updates v us = .ok w) : w.length = v.length := by
  refine foldlM_invariant update (fun x => x.length = v.length) us ?_ rfl h
  grind [update_length]

theorem updates_range (h : updates v us = .ok w) {u : Update} (hu : u ∈ us) :
    0 ≤ u.1 ∧ u.1 + 2 ≤ v.length := by
  induction us generalizing v with
  | nil => cases hu
  | cons first rest ih =>
    obtain ⟨mid, hmid, hrest⟩ := updates_cons_eq_ok.mp h
    grind [update_range, update_length]

-- The run succeeds as soon as every field lies inside the vector.
theorem updates_ok (h : ∀ u ∈ us, 0 ≤ u.1 ∧ u.1 + 2 ≤ v.length) : ∃ w, updates v us = .ok w := by
  induction us generalizing v with
  | nil => exact ⟨v, rfl⟩
  | cons first rest ih =>
    obtain ⟨mid, hmid⟩ := update_ok (h first (by simp))
    have hrest : ∀ u ∈ rest, 0 ≤ u.1 ∧ u.1 + 2 ≤ mid.length := by
      intro u hu
      rw [update_length hmid]
      exact h u (List.mem_cons_of_mem _ hu)
    obtain ⟨w, hw⟩ := ih hrest
    exact ⟨w, updates_cons_eq_ok.mpr ⟨mid, hmid, hw⟩⟩

theorem updates_getD (h : updates v us = .ok w) {j : Nat} (hj : ∀ u ∈ us, ¬InField j u.1) :
    w.getD j 0 = v.getD j 0 := by
  refine foldlM_invariant update (fun x => x.getD j 0 = v.getD j 0) us ?_ rfl h
  grind [update_getD]

theorem updates_u16At_apart (h : updates v us = .ok w) {j : Int} (h0 : 0 ≤ j)
    (hj : ∀ u ∈ us, Apart u.1 j) : u16At w j.toNat = u16At v j.toNat := by
  refine foldlM_invariant update (fun x => u16At x j.toNat = u16At v j.toNat) us ?_ rfl h
  grind [update_u16At_apart]

-- Fields without common bytes are each updated once, from their first value.
theorem updates_u16At (h : updates v us = .ok w) (hapart : us.Pairwise fun a b => Apart a.1 b.1)
    {u : Update} (hu : u ∈ us) : (u16At w u.1.toNat : Int) = u.2 (u16At v u.1.toNat) % 65536 := by
  induction us generalizing v with
  | nil => cases hu
  | cons first rest ih =>
    obtain ⟨mid, hmid, hrest⟩ := updates_cons_eq_ok.mp h
    obtain ⟨hfirst, hpair⟩ := List.pairwise_cons.mp hapart
    rcases List.mem_cons.mp hu with rfl | hu
    · rw [updates_u16At_apart hrest (update_range hmid).1 fun x hx => (hfirst x hx).symm,
        update_u16At hmid]
    · have h0 : 0 ≤ u.1 := (updates_range hrest hu).1
      grind [update_u16At_apart]

end Updates

-- Adding a constant to every field.

def shifts (by_ : Int) (offsets : List Int) : List Update :=
  offsets.map fun off => (off, fun w => wrap64 (w + by_))

section Shifts

variable {v w : List UInt8} {d : Int}

variable {off : Int} {offsets : List Int}

theorem updates_shifts_cons {rest : List Int} :
    updates v (shifts d (off :: rest)) = .ok w ↔
      ∃ mid, update v (off, fun w => wrap64 (w + d)) = .ok mid ∧
        updates mid (shifts d rest) = .ok w :=
  updates_cons_eq_ok

theorem shift_u16At (h : update v (off, fun w => wrap64 (w + d)) = .ok w) :
    (u16At w off.toNat : Int) = (u16At v off.toNat + d) % 65536 := by
  rw [update_u16At h, wrap64_emod_u16]

theorem updates_shifts_zero (h : updates v (shifts 0 offsets) = .ok w) :
    w = v := by
  induction offsets generalizing v with
  | nil =>
    cases h
    rfl
  | cons off rest ih =>
    obtain ⟨mid, hmid, hrest⟩ := updates_shifts_cons.mp h
    have hsame : mid = v := by
      have hlt := u16At_lt v off.toNat
      refine storeU16_self (update_eq_ok.mp hmid) ?_
      simp only [wrap64_emod_u16]
      omega
    rw [ih hrest, hsame]

-- Fields above a byte leave it alone. If the constant is a multiple of 256, they leave
-- the first byte of each field alone as well.
theorem updates_shifts_low {j : Nat}
    (hj : ∀ off ∈ offsets, (j : Int) < off ∨ d % 256 = 0 ∧ (j : Int) = off)
    (h : updates v (shifts d offsets) = .ok w) : w.getD j 0 = v.getD j 0 := by
  induction offsets generalizing v with
  | nil =>
    cases h
    rfl
  | cons off rest ih =>
    obtain ⟨mid, hmid, hrest⟩ := updates_shifts_cons.mp h
    rw [ih (fun x hx => hj x (List.mem_cons_of_mem _ hx)) hrest]
    rcases hj off (by simp) with hlt | ⟨hd, rfl⟩
    · grind [update_getD, InField]
    · have hword := shift_u16At hmid
      rw [Int.toNat_natCast, u16At, u16At] at hword
      have hlo := (mid.getD j 0).toNat_lt
      have hlo' := (v.getD j 0).toNat_lt
      apply UInt8.toNat_inj.mp
      omega

-- Only a multiple of 2^16 can be added at different places without a trace: the lowest
-- field shows the rest.
theorem updates_shifts_eq_self (hnodup : offsets.Nodup) (hne : offsets ≠ [])
    (h : updates v (shifts d offsets) = .ok v) : d % 65536 = 0 := by
  obtain ⟨o, ho, hmin⟩ : ∃ o ∈ offsets, ∀ x ∈ offsets, o ≤ x := by
    have hf : offsets.toFinset.Nonempty := List.toFinset_nonempty_iff offsets |>.mpr hne
    obtain ⟨o, ho, hle⟩ := Finset.exists_min_image offsets.toFinset id hf
    exact ⟨o, List.mem_toFinset.mp ho, fun x hx => hle x (List.mem_toFinset.mpr hx)⟩
  obtain ⟨front, back, rfl⟩ := List.append_of_mem ho
  rw [updates, shifts, List.map_append, foldlM_append_eq_ok] at h
  obtain ⟨v₁, hfront, hrest⟩ := h
  obtain ⟨v₂, hmid, hback⟩ := updates_shifts_cons.mp hrest
  have h0 : 0 ≤ o := (update_range hmid).1
  obtain ⟨j, rfl⟩ : ∃ j : Nat, o = j := ⟨o.toNat, by omega⟩
  have hother : ∀ x ∈ front ++ back, (j : Int) < x := by
    intro x hx
    have hle : (j : Int) ≤ x := hmin x (by simp at hx ⊢; tauto)
    have hxne : x ≠ j := by
      rintro rfl
      have := List.nodup_middle.mp hnodup
      exact (List.nodup_cons.mp this).1 hx
    omega
  have hword := shift_u16At hmid
  rw [Int.toNat_natCast, u16At, u16At] at hword
  have hsame : ∀ k : Nat, (∀ x ∈ front ++ back, (k : Int) < x ∨ d % 256 = 0 ∧ (k : Int) = x) →
      (v₂.getD k 0).toNat = (v₁.getD k 0).toNat := by
    intro k hk
    rw [← updates_shifts_low (fun x hx => hk x (by simp [hx])) hback,
      updates_shifts_low (fun x hx => hk x (by simp [hx])) hfront]
  grind

end Shifts

end Wirth.Lib

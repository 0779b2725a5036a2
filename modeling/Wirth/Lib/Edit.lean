import Mathlib.Order.Lattice.Nat

namespace Wirth.Lib

variable {α : Type} {s t mid : List α} {n m : Nat}

-- One character is inserted, deleted or replaced.
def Edit (s t : List α) : Prop :=
  ∃ x u v y : List α, s = x ++ u ++ y ∧ t = x ++ v ++ y ∧ u.length ≤ 1 ∧ v.length ≤ 1

def Edits : Nat → List α → List α → Prop
  | 0, s, t => s = t
  | n + 1, s, t => ∃ mid, Edit s mid ∧ Edits n mid t

theorem Edit.one (h : Edit s t) : Edits 1 s t := ⟨t, h, rfl⟩

theorem edit_head (u v y : List α) (hu : u.length ≤ 1) (hv : v.length ≤ 1) : Edit (u ++ y) (v ++ y) :=
  ⟨[], u, v, y, rfl, rfl, hu, hv⟩

theorem Edits.cons (a : α) (h : Edits n s t) : Edits n (a :: s) (a :: t) := by
  induction n generalizing s with
  | zero => exact congrArg (a :: ·) h
  | succ n ih =>
    obtain ⟨mid, ⟨x, u, v, y, rfl, rfl, hu, hv⟩, hrest⟩ := h
    exact ⟨_, ⟨a :: x, u, v, y, rfl, rfl, hu, hv⟩, ih hrest⟩

theorem Edits.trans (h : Edits n s mid) (h' : Edits m mid t) : Edits (n + m) s t := by
  induction n generalizing s with
  | zero =>
    rw [Nat.zero_add, show s = mid from h]
    exact h'
  | succ n ih =>
    obtain ⟨next, hedit, hrest⟩ := h
    rw [Nat.succ_add]
    exact ⟨next, hedit, ih hrest⟩

theorem Edits.symm (h : Edits n s t) : Edits n t s := by
  induction n generalizing s with
  | zero => exact Eq.symm h
  | succ n ih =>
    obtain ⟨mid, ⟨x, u, v, y, hs, hmid, hu, hv⟩, hrest⟩ := h
    exact (ih hrest).trans (Edit.one ⟨x, v, u, y, hmid, hs, hv, hu⟩)

theorem Edits.reverse (h : Edits n s t) : Edits n s.reverse t.reverse := by
  induction n generalizing s with
  | zero => exact congrArg List.reverse h
  | succ n ih =>
    obtain ⟨mid, ⟨x, u, v, y, rfl, rfl, hu, hv⟩, hrest⟩ := h
    exact ⟨_, ⟨y.reverse, u.reverse, v.reverse, x.reverse, by simp, by simp, by simpa, by simpa⟩, ih hrest⟩

theorem edits_min (h : Edits n s t) (h' : Edits m s t) : Edits (min n m) s t := by
  rcases Nat.le_total n m with hle | hle
  · rwa [Nat.min_eq_left hle]
  · rwa [Nat.min_eq_right hle]

theorem edits_nil (t : List α) : Edits t.length [] t := by
  induction t with
  | nil => rfl
  | cons b t ih => exact ih.trans (edit_head [] [b] t (by simp) (by simp)).one

variable [DecidableEq α]

-- The number of edits by recursion on the first characters.
def distance : List α → List α → Nat
  | [], t => t.length
  | s, [] => s.length
  | a :: s, b :: t =>
      min (min (distance s (b :: t) + 1) (distance (a :: s) t + 1))
        (distance s t + if a = b then 0 else 1)

theorem distance_nil (s : List α) : distance s [] = s.length := by
  cases s <;> simp [distance]

theorem distance_delete (a : α) (s t : List α) : distance (a :: s) t ≤ distance s t + 1 := by
  cases t with
  | nil => simp [distance_nil]
  | cons b t =>
    rw [distance]
    omega

theorem distance_insert (s : List α) (b : α) (t : List α) : distance s (b :: t) ≤ distance s t + 1 := by
  cases s with
  | nil => simp [distance]
  | cons a s =>
    rw [distance]
    omega

theorem distance_undelete (a : α) (s t : List α) : distance s t ≤ distance (a :: s) t + 1 := by
  induction t with
  | nil =>
    simp only [distance_nil, List.length_cons]
    omega
  | cons b t ih =>
    have hinsert := distance_insert s b t
    simp only [distance]
    split <;> omega

theorem distance_replace (a b : α) (s t : List α) : distance (a :: s) t ≤ distance (b :: s) t + 1 := by
  induction t with
  | nil => simp [distance_nil]
  | cons c t ih =>
    simp only [distance]
    split <;> split <;> omega

theorem distance_cons (a : α) (h : ∀ t, distance s t ≤ distance mid t + 1) (t : List α) :
    distance (a :: s) t ≤ distance (a :: mid) t + 1 := by
  induction t with
  | nil => simpa [distance_nil] using h []
  | cons b t ih =>
    have hboth := h (b :: t)
    have hrest := h t
    simp only [distance]
    omega

-- One edit makes the distance to any other word smaller by at most one.
theorem distance_edit (h : Edit s mid) (t : List α) : distance s t ≤ distance mid t + 1 := by
  obtain ⟨x, u, v, y, rfl, rfl, hu, hv⟩ := h
  induction x generalizing t with
  | nil =>
    rcases u with _ | ⟨a, _ | _⟩ <;> rcases v with _ | ⟨b, _ | _⟩ <;> simp at hu hv
    · exact Nat.le_succ _
    · exact distance_undelete b y t
    · exact distance_delete a y t
    · exact distance_replace a b y t
  | cons a x ih => exact distance_cons a ih t

theorem distance_self (s : List α) : distance s s = 0 := by
  induction s with
  | nil => simp [distance]
  | cons a s ih => simp [distance, ih]

theorem distance_le (h : Edits n s t) : distance s t ≤ n := by
  induction n generalizing s with
  | zero => rw [show s = t from h, distance_self]
  | succ n ih =>
    obtain ⟨mid, hedit, hrest⟩ := h
    exact (distance_edit hedit t).trans (Nat.succ_le_succ (ih hrest))

theorem edits_distance (s t : List α) : Edits (distance s t) s t := by
  induction s, t using distance.induct with
  | case1 t =>
    rw [distance]
    exact edits_nil t
  | case2 s hs =>
    rw [distance_nil]
    exact (edits_nil s).symm
  | case3 a s b t ihd ihi ihr =>
    have hdelete := (edit_head [a] [] s (by simp) (by simp)).one.trans ihd
    have hinsert := ihi.trans (edit_head [] [b] t (by simp) (by simp)).one
    have hreplace : Edits (distance s t + if a = b then 0 else 1) (a :: s) (b :: t) := by
      split_ifs with hab
      · exact hab ▸ ihr.cons a
      · exact (ihr.cons a).trans (edit_head [a] [b] t (by simp) (by simp)).one
    rw [distance]
    exact edits_min (edits_min (by rwa [Nat.add_comm] at hdelete) hinsert) hreplace

theorem isLeast_distance (s t : List α) : IsLeast { n | Edits n s t } (distance s t) :=
  ⟨edits_distance s t, fun _ h => distance_le h⟩

theorem distance_reverse (s t : List α) : distance s.reverse t.reverse = distance s t := by
  refine Nat.le_antisymm (distance_le (edits_distance s t).reverse) (distance_le ?_)
  simpa using (edits_distance s.reverse t.reverse).reverse

theorem distance_comm (s t : List α) : distance s t = distance t s :=
  Nat.le_antisymm (distance_le (edits_distance t s).symm) (distance_le (edits_distance s t).symm)

theorem distance_triangle (s mid t : List α) : distance s t ≤ distance s mid + distance mid t :=
  distance_le ((edits_distance s mid).trans (edits_distance mid t))

theorem distance_eq_zero : distance s t = 0 ↔ s = t := by
  constructor
  · intro h
    have := edits_distance s t
    rwa [h] at this
  · rintro rfl
    exact distance_self s

end Wirth.Lib

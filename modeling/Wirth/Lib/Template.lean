import Mathlib.Data.List.Infix

namespace Wirth.Lib

variable {α H : Type}

-- A text with holes in it, and what it is with the holes filled.

inductive Piece (α H : Type) where
  | char (c : α)
  | hole (h : H)
  deriving DecidableEq

def fill (text : H → List α) : List (Piece α H) → List α
  | [] => []
  | .char c :: pieces => c :: fill text pieces
  | .hole h :: pieces => text h ++ fill text pieces

def lead : List (Piece α H) → List α
  | .char c :: pieces => c :: lead pieces
  | _ => []

def hasHole : List (Piece α H) → Bool
  | [] => false
  | .char _ :: pieces => hasHole pieces
  | .hole _ :: _ => true

theorem lead_prefix_fill (text : H → List α) (pieces : List (Piece α H)) :
    lead pieces <+: fill text pieces := by
  induction pieces with
  | nil => exact List.prefix_refl _
  | cons piece pieces ih =>
    cases piece with
    | char c => exact (List.prefix_cons_inj c).2 ih
    | hole h => exact List.nil_prefix

theorem fill_of_not_hasHole {pieces : List (Piece α H)} (h : hasHole pieces = false)
    (text : H → List α) : fill text pieces = lead pieces := by
  induction pieces with
  | nil => rfl
  | cons piece pieces ih =>
    cases piece with
    | char c => rw [fill, lead, ih h]
    | hole h' => cases h

theorem fill_congr {text text' : H → List α} {pieces : List (Piece α H)}
    (h : ∀ hole, Piece.hole hole ∈ pieces → text hole = text' hole) :
    fill text pieces = fill text' pieces := by
  induction pieces with
  | nil => rfl
  | cons piece pieces ih =>
    have hrest := ih fun hole hmem => h hole (List.mem_cons_of_mem _ hmem)
    cases piece with
    | char c => rw [fill, fill, hrest]
    | hole h' => rw [fill, fill, hrest, h h' (by simp)]

-- A pattern does not occur in a text, nor does it begin at the end of it.
def Quiet (pattern text : List α) : Prop :=
  ∀ s ∈ text.tails, s ≠ [] → ¬pattern <+: s ∧ ¬s <+: pattern

instance [DecidableEq α] (pattern text : List α) : Decidable (Quiet pattern text) :=
  inferInstanceAs (Decidable (∀ s ∈ text.tails, _))

theorem quiet_nil (pattern : List α) : Quiet pattern [] := by
  intro s hs hne
  grind [List.mem_tails]

theorem Quiet.not_begins {pattern text s : List α} (h : Quiet pattern text) (hs : s <:+ text)
    (hne : s ≠ []) (rest : List α) : ¬pattern <+: s ++ rest := by
  obtain ⟨hinside, hbegins⟩ := h s ((List.mem_tails _ _).2 hs) hne
  grind [List.prefix_or_prefix_of_prefix]

-- A text with a hole behind its lead: a pattern that neither lies in the lead nor begins with all of
-- it is no beginning of the text, however its holes are filled. Without a hole nothing changes.
theorem not_prefix_fill {pattern before : List α} {pieces : List (Piece α H)}
    (hlead : ¬pattern <+: before ++ lead pieces)
    (hmore : hasHole pieces = true → ¬before ++ lead pieces <+: pattern) (text : H → List α) :
    ¬pattern <+: before ++ fill text pieces := by
  intro hstarts
  have hbefore : before ++ lead pieces <+: before ++ fill text pieces :=
    (List.prefix_append_right_inj before).2 (lead_prefix_fill text pieces)
  rcases List.prefix_or_prefix_of_prefix hstarts hbefore with hp | hp
  · exact hlead hp
  grind [fill_of_not_hasHole]

end Wirth.Lib

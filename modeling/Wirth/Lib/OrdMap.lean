import Mathlib.Data.List.Basic
import Mathlib.Data.List.Pairwise
import Mathlib.Order.Lattice

namespace Wirth.Lib

variable {κ α : Type} [LinearOrder κ]

-- Entries of an ordered map stand in increasing order of key, so no key occurs twice.
def SortedKeys (entries : List (κ × α)) : Prop := entries.Pairwise fun p q => p.1 < q.1

instance (entries : List (κ × α)) : Decidable (SortedKeys entries) :=
  inferInstanceAs (Decidable (entries.Pairwise _))

def assignEntry (k : κ) (v : α) : List (κ × α) → List (κ × α)
  | [] => [(k, v)]
  | (k', v') :: rest =>
      if k < k' then (k, v) :: (k', v') :: rest
      else if k' < k then (k', v') :: assignEntry k v rest
      else (k, v) :: rest

-- Add a key that is not there yet; a key that is keeps its value.
def emplaceEntry (k : κ) (v : α) : List (κ × α) → List (κ × α)
  | [] => [(k, v)]
  | (k', v') :: rest =>
      if k < k' then (k, v) :: (k', v') :: rest
      else if k' < k then (k', v') :: emplaceEntry k v rest
      else (k', v') :: rest

theorem mem_assignEntry {k : κ} {v : α} {entries : List (κ × α)} {p : κ × α}
    (h : p ∈ assignEntry k v entries) : p = (k, v) ∨ p ∈ entries := by
  induction entries with
  | nil => simpa [assignEntry] using h
  | cons q rest ih =>
    rcases q with ⟨k', v'⟩
    simp only [assignEntry] at h
    grind

theorem assignEntry_sorted (k : κ) (v : α) {entries : List (κ × α)} (h : SortedKeys entries) :
    SortedKeys (assignEntry k v entries) := by
  induction entries with
  | nil => exact List.pairwise_singleton _ _
  | cons q rest ih =>
    rcases q with ⟨k', v'⟩
    obtain ⟨hhead, hrest⟩ := List.pairwise_cons.mp h
    simp only [assignEntry]
    split_ifs with hlt hgt
    · refine List.pairwise_cons.mpr ⟨?_, h⟩
      grind
    · refine List.pairwise_cons.mpr ⟨?_, ih hrest⟩
      intro p hp
      rcases mem_assignEntry hp with rfl | hp
      · exact hgt
      · exact hhead p hp
    · have he : k = k' := le_antisymm (not_lt.mp hgt) (not_lt.mp hlt)
      subst he
      exact List.pairwise_cons.mpr ⟨hhead, hrest⟩

theorem foldl_assignEntry_sorted (entries : List (κ × α)) {acc : List (κ × α)}
    (h : SortedKeys acc) :
    SortedKeys (entries.foldl (fun acc p => assignEntry p.1 p.2 acc) acc) := by
  induction entries generalizing acc with
  | nil => exact h
  | cons p rest ih => exact ih (assignEntry_sorted p.1 p.2 h)

theorem mem_foldl_assignEntry {entries acc : List (κ × α)} {q : κ × α}
    (h : q ∈ entries.foldl (fun acc p => assignEntry p.1 p.2 acc) acc) :
    q ∈ entries ∨ q ∈ acc := by
  induction entries generalizing acc with
  | nil => exact Or.inr h
  | cons p rest ih =>
    grind [mem_assignEntry]

section Lookup

variable [BEq κ] [LawfulBEq κ]

theorem lookup_cons_ite (k k' : κ) (v : α) (rest : List (κ × α)) :
    ((k', v) :: rest).lookup k = if k = k' then some v else rest.lookup k := by
  grind

theorem lookup_assignEntry (k k' : κ) (v : α) (entries : List (κ × α)) :
    (assignEntry k v entries).lookup k' = if k' = k then some v else entries.lookup k' := by
  induction entries with
  | nil => simp only [assignEntry, lookup_cons_ite]
  | cons q rest ih =>
    rcases q with ⟨j, w⟩
    simp only [assignEntry]
    by_cases hlt : k < j
    · simp only [if_pos hlt, lookup_cons_ite]
    by_cases hgt : j < k
    · grind
    grind

variable {entries : List (κ × α)}

theorem mem_of_lookup {k : κ} {v : α}
    (h : entries.lookup k = some v) : (k, v) ∈ entries := by
  induction entries with
  | nil => simp at h
  | cons q rest ih =>
    grind

theorem lookup_of_mem (hs : SortedKeys entries) {k : κ} {v : α}
    (h : (k, v) ∈ entries) : entries.lookup k = some v := by
  induction entries with
  | nil => simp at h
  | cons q rest ih =>
    rcases q with ⟨k', v'⟩
    obtain ⟨hhead, hrest⟩ := List.pairwise_cons.mp hs
    rw [lookup_cons_ite]
    rcases List.mem_cons.mp h with he | h
    · cases he
      exact if_pos rfl
    · rw [if_neg (hhead _ h).ne']
      exact ih hrest h

theorem lookup_foldl_assignEntry (h : (entries.map Prod.fst).Nodup)
    (acc : List (κ × α)) (k : κ) :
    (entries.foldl (fun acc p => assignEntry p.1 p.2 acc) acc).lookup k =
      (entries.lookup k).or (acc.lookup k) := by
  induction entries generalizing acc with
  | nil => simp
  | cons p rest ih =>
    rw [List.map_cons, List.nodup_cons] at h
    rw [List.foldl_cons, ih h.2, lookup_assignEntry, lookup_cons_ite]
    by_cases hk : k = p.1
    · grind
    · simp [hk]

end Lookup

theorem assignEntry_of_lt (k : κ) (v : α) (entries : List (κ × α))
    (h : ∀ p ∈ entries, p.1 < k) : assignEntry k v entries = entries ++ [(k, v)] := by
  induction entries with
  | nil => rfl
  | cons q rest ih =>
    have hq := h q (by simp)
    rcases q with ⟨k', v'⟩
    simp only [assignEntry, if_neg hq.not_gt, if_pos hq, List.cons_append]
    grind

theorem emplaceEntry_of_lt (k : κ) (v : α) (entries : List (κ × α))
    (h : ∀ p ∈ entries, p.1 < k) : emplaceEntry k v entries = entries ++ [(k, v)] := by
  induction entries with
  | nil => rfl
  | cons q rest ih =>
    have hq := h q (by simp)
    rcases q with ⟨k', v'⟩
    simp only [emplaceEntry, if_neg hq.not_gt, if_pos hq, List.cons_append]
    grind

-- An ordered map is its entries together with the order they are kept in.
structure OrdMap (κ α : Type) [LinearOrder κ] where
  entries : List (κ × α)
  sorted : SortedKeys entries

namespace OrdMap

@[ext] theorem ext {m m' : OrdMap κ α} (h : m.entries = m'.entries) : m = m' := by
  cases m
  cases m'
  cases h
  rfl

instance [DecidableEq α] : DecidableEq (OrdMap κ α) := fun m m' =>
  decidable_of_iff (m.entries = m'.entries) ⟨ext, congrArg _⟩

def empty : OrdMap κ α := ⟨[], List.Pairwise.nil⟩

def find? (m : OrdMap κ α) (k : κ) : Option α := m.entries.lookup k

def insert (m : OrdMap κ α) (k : κ) (v : α) : OrdMap κ α :=
  ⟨assignEntry k v m.entries, assignEntry_sorted k v m.sorted⟩

@[simp] theorem find?_empty (k : κ) : (empty : OrdMap κ α).find? k = none := rfl

theorem find?_insert (m : OrdMap κ α) (k k' : κ) (v : α) :
    (m.insert k v).find? k' = if k' = k then some v else m.find? k' :=
  lookup_assignEntry k k' v m.entries

@[simp] theorem find?_insert_self (m : OrdMap κ α) (k : κ) (v : α) :
    (m.insert k v).find? k = some v := by
  rw [find?_insert, if_pos rfl]

theorem find?_insert_of_ne (m : OrdMap κ α) {k k' : κ} (v : α) (h : k' ≠ k) :
    (m.insert k v).find? k' = m.find? k' := by
  rw [find?_insert, if_neg h]

theorem find?_eq_some_iff (m : OrdMap κ α) (k : κ) (v : α) :
    m.find? k = some v ↔ (k, v) ∈ m.entries :=
  ⟨mem_of_lookup, lookup_of_mem m.sorted⟩

theorem foldl_insert_append (done rest : List (κ × α)) (h : SortedKeys (done ++ rest))
    (m : OrdMap κ α) (hm : m.entries = done) :
    (rest.foldl (fun acc p => acc.insert p.1 p.2) m).entries = done ++ rest := by
  induction rest generalizing done m with
  | nil => simpa using hm
  | cons p rest ih =>
    subst hm
    have hlt : ∀ q ∈ m.entries, q.1 < p.1 := fun q hq =>
      (List.pairwise_append.mp h).2.2 q hq p (by simp)
    have he : (m.insert p.1 p.2).entries = m.entries ++ [p] :=
      assignEntry_of_lt p.1 p.2 m.entries hlt
    grind

theorem foldl_insert_entries (m : OrdMap κ α) :
    m.entries.foldl (fun acc p => acc.insert p.1 p.2) empty = m := by
  apply ext
  simpa using foldl_insert_append [] m.entries (by simpa using m.sorted) empty rfl

end OrdMap

end Wirth.Lib

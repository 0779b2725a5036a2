import Wirth.Lib.X86.Paging

namespace Wirth.Lib.X86

def span (a : Word) (count : Nat) : List Word :=
  (List.range count).map fun i => a + BitVec.ofNat 32 i

theorem mem_span {a x : Word} {count : Nat} :
    x ∈ span a count ↔ ∃ i < count, a + BitVec.ofNat 32 i = x := by
  simp only [span, List.mem_map, List.mem_range]

@[simp] theorem span_zero (a : Word) : span a 0 = [] := rfl

theorem span_succ (a : Word) (count : Nat) : span a (count + 1) = a :: span (a + 1) count := by
  simp only [span, List.range_succ_eq_map, List.map_cons, List.map_map, BitVec.add_zero]
  congr 1
  apply List.map_congr_left
  simp only [Function.comp_apply]
  bv_omega

theorem span_add (a : Word) (m n : Nat) :
    span a (m + n) = span a m ++ span (a + BitVec.ofNat 32 m) n := by
  simp only [span, List.range_add, List.map_append, List.map_map]
  congr 1
  apply List.map_congr_left
  simp only [Function.comp_apply]
  bv_omega

section Bounds

variable {a x : Word} {count lo hi : Nat}

def Between (lo hi : Nat) (x : Word) : Prop := lo ≤ x.toNat ∧ x.toNat < hi

theorem between_span (hlo : lo ≤ a.toNat) (hhi : a.toNat + count ≤ hi) (hbound : hi ≤ 2 ^ 32) :
    ∀ x ∈ span a count, Between lo hi x := by
  intro x hx
  obtain ⟨i, hi, rfl⟩ := mem_span.mp hx
  rw [Between]
  bv_omega

-- The last address of all is in no span that stays below `hi`, so such a span does not wrap.
theorem between_span_iff (hcount : 0 < count) (hbound : hi < 2 ^ 32) :
    (∀ x ∈ span a count, Between lo hi x) ↔ lo ≤ a.toNat ∧ a.toNat + count ≤ hi := by
  refine ⟨fun h => ?_, fun h => between_span h.1 h.2 hbound.le⟩
  have hfirst := h (a + BitVec.ofNat 32 0) (mem_span.mpr ⟨0, hcount, rfl⟩)
  rw [BitVec.add_zero] at hfirst
  refine ⟨hfirst.1, ?_⟩
  by_contra hover
  have hstop := h (a + BitVec.ofNat 32 (hi - a.toNat))
    (mem_span.mpr ⟨hi - a.toNat, by omega, rfl⟩)
  grind [Between]

end Bounds

end Wirth.Lib.X86

import Wirth.Lib.Ended
import Wirth.Lib.Text

namespace Wirth.Kernel.Shell

open Wirth.Lib

def addDigit (value : UInt32) (c : UInt8) : Option UInt32 :=
  if c < 48 ∨ 57 < c then none else some (value * 10 + UInt32.ofNat (c.toNat - 48))

def parseU32 (s : Str) : Option UInt32 := if s = [] then none else s.foldlM addDigit 0

-- The digits as they are put into `buf`, the last one first.
def decBuffer : Nat → Nat → Str
  | 0, _ => []
  | room + 1, value => if 0 < value then UInt8.ofNat (48 + value % 10) :: decBuffer room (value / 10) else []

def writeDec (value : UInt32) : Str :=
  if value = 0 then lit "0" else (decBuffer 11 value.toNat).reverse

-- The loop with the number of rounds that are left.
def seqLoop (last step : UInt32) : Nat → UInt32 → Ended Str
  | 0, _ => .diverges
  | rounds + 1, v =>
      if v ≤ last then
        let line := writeDec v ++ lit "\n"
        if last - v < step then .returned line
        else do .returned (line ++ (← seqLoop last step rounds (v + step)))
      else .returned []

def seqUsage : Str := lit "seq <end> | seq <start> <end> [step]\n"

-- The range and the step, or what is printed instead.
def seqArguments (argv : List Str) : Except Str (UInt32 × UInt32 × UInt32) :=
  match argv with
  | [_, last] => ((parseU32 last).map fun last => .ok (1, last, 1)).getD (.error seqUsage)
  | _ :: start :: last :: rest =>
      match parseU32 start, parseU32 last with
      | some start, some last =>
          match rest with
          | [] => .ok (start, last, 1)
          | step :: _ =>
              ((parseU32 step).map fun step => .ok (start, last, step)).getD (.error (lit "seq: invalid step\n"))
      | _, _ => .error seqUsage
  | _ => .error seqUsage

def seq (argv : List Str) : Ended Str :=
  match seqArguments argv with
  | .error text => .returned text
  | .ok (start, last, step) =>
      if step = 0 ∨ last < start then .returned (lit "seq: invalid range\n")
      else seqLoop last step (2 ^ 32) start

-- Exactly the decimal numbers of 32 bits are accepted, with their values.
def ParsesU32 (s : Str) : Prop :=
  ∀ v, parseU32 s = some v ↔ s ≠ [] ∧ s.all isDigit ∧ digitsValue s = v.toNat

theorem foldlM_addDigit (s : Str) (n : Nat) : s.foldlM addDigit (UInt32.ofNat n) =
      if s.all isDigit then
        some (UInt32.ofNat (s.foldl (fun acc c => 10 * acc + (c.toNat - 48)) n))
      else none := by
  induction s generalizing n with
  | nil => simp
  | cons c s ih =>
    rw [List.foldlM_cons, addDigit]
    by_cases hdigit : isDigit c
    · have hrange : ¬(c < 48 ∨ 57 < c) := by
        simpa [isDigit, not_or] using hdigit
      have hnext : UInt32.ofNat n * 10 + UInt32.ofNat (c.toNat - 48) =
          UInt32.ofNat (10 * n + (c.toNat - 48)) := by
        rw [UInt32.ofNat_add, UInt32.ofNat_mul, UInt32.mul_comm]
        rfl
      rw [if_neg hrange, Option.bind_eq_bind, Option.bind_some, hnext, ih]
      simp [hdigit]
    · have hrange : c < 48 ∨ 57 < c := by
        by_contra hrange
        exact hdigit (by simpa [isDigit, not_or] using hrange)
      simp [hrange, hdigit]

-- The value is taken modulo 2^32.
theorem parse_u32_exact_iff (s : Str) : ParsesU32 s ↔
    (s ≠ [] → s.all isDigit → digitsValue s < 2 ^ 32) := by
  have hparse : ∀ v, parseU32 s = some v ↔
      s ≠ [] ∧ s.all isDigit ∧ UInt32.ofNat (digitsValue s) = v := by
    intro v
    have hfold := foldlM_addDigit s 0
    by_cases hempty : s = []
    · simp [parseU32, hempty]
    · rw [parseU32, if_neg hempty, show (0 : UInt32) = UInt32.ofNat 0 from rfl, hfold, ← digitsValue,
        Option.ite_none_right_eq_some, Option.some.injEq]
      exact (and_iff_right hempty).symm
  constructor
  · intro h hempty hdigits
    rw [((h _).mp ((hparse _).mpr ⟨hempty, hdigits, rfl⟩)).2.2]
    exact UInt32.toNat_lt _
  · intro h v
    rw [hparse, and_congr_right_iff]
    intro hempty
    rw [and_congr_right_iff]
    intro hdigits
    rw [← UInt32.toNat_inj, UInt32.toNat_ofNat_of_lt' (h hempty hdigits)]

theorem large_number_accepted : parseU32 (lit "4294967297") = some 1 ∧ ¬ParsesU32 (lit "4294967297") := by
  have hone : parseU32 (lit "4294967297") = some 1 := by decide +kernel
  exact ⟨hone, fun h => absurd ((h 1).mp hone).2.2 (by decide +kernel)⟩

theorem decBuffer_eq (room value : Nat) (h : value < 10 ^ room) :
    decBuffer room value = (Nat.digits 10 value).map fun d => UInt8.ofNat (48 + d) := by
  induction room generalizing value with
  | zero =>
    obtain rfl : value = 0 := by omega
    rfl
  | succ room ih =>
    rw [decBuffer]
    split_ifs with hpos
    · rw [Nat.digits_def' (by decide) hpos, List.map_cons, ih]
      rw [Nat.pow_succ] at h
      omega
    · obtain rfl : value = 0 := by omega
      simp

theorem writeDec_eq (value : UInt32) : writeDec value = decimalNat value.toNat := by
  by_cases hzero : value = 0
  · rw [hzero]
    rfl
  · have hpos : value.toNat ≠ 0 := fun h => hzero (UInt32.toNat_inj.mp h)
    have hlt := value.toNat_lt
    rw [writeDec, if_neg hzero, decimalNat, if_neg hpos, decBuffer_eq 11 _ (by omega)]

section Progression

variable {last step : UInt32}

-- What `seq` prints from `v` on.
def progression (last step v : UInt32) : Str :=
  (List.range ((last.toNat - v.toNat) / step.toNat + 1)).flatMap fun i =>
    decimalNat (v.toNat + i * step.toNat) ++ lit "\n"

-- The test before the increment keeps the sum below 2^32.
theorem seqLoop_eq (hstep : 0 < step.toNat) {rounds : Nat} {v : UInt32} (hv : v ≤ last)
    (hrounds : last.toNat - v.toNat < rounds) :
    seqLoop last step rounds v = .returned (progression last step v) := by
  induction rounds generalizing v with
  | zero => omega
  | succ rounds ih =>
    have hle := UInt32.le_iff_toNat_le.mp hv
    have hlast := last.toNat_lt
    have hroom : last - v < step ↔ last.toNat - v.toNat < step.toNat := by
      rw [UInt32.lt_iff_toNat_lt, UInt32.toNat_sub_of_le _ _ hv]
    simp only [seqLoop, if_pos hv, writeDec_eq, hroom]
    rw [progression]
    by_cases hend : last.toNat - v.toNat < step.toNat
    · simp [hend, Nat.div_eq_of_lt hend]
    · have hnext : (v + step).toNat = v.toNat + step.toNat := by
        rw [UInt32.toNat_add, Nat.mod_eq_of_lt (by omega)]
      have hless : v + step ≤ last := UInt32.le_iff_toNat_le.mpr (by omega)
      rw [if_neg hend, ih hless (by omega), Nat.div_eq_sub_div hstep (by omega), List.range_succ_eq_map,
        List.flatMap_cons, List.flatMap_map, progression, hnext, Nat.sub_add_eq]
      simp [Nat.add_mul, Nat.add_assoc, Nat.add_comm, Nat.add_left_comm]

end Progression

theorem seq_prints_progression {argv : List Str} {start last step : UInt32}
    (hargs : seqArguments argv = .ok (start, last, step)) (hrange : start ≤ last) (hstep : 0 < step) :
    seq argv = .returned (progression last step start) := by
  have hpos : 0 < step.toNat := UInt32.lt_iff_toNat_lt.mp hstep
  have hlast := last.toNat_lt
  rw [seq, hargs]
  have hvalid : ¬(step = 0 ∨ last < start) := by
    rintro (rfl | hless)
    · exact absurd hpos (by decide)
    · exact absurd hrange (UInt32.not_le.mpr hless)
  exact (if_neg hvalid).trans (seqLoop_eq hpos hrange (by omega))

theorem seq_prints_to_the_end :
    seq [lit "seq", lit "4294967290", lit "4294967295", lit "4"] =
      .returned (lit "4294967290\n4294967294\n") :=
  (seq_prints_progression (show _ = Except.ok (4294967290, 4294967295, 4) by decide +kernel)
    (by decide) (by decide)).trans (by decide +kernel)

end Wirth.Kernel.Shell

import Mathlib.Data.List.GetD
import Wirth.Toolchain.Assembler.Placement

namespace Wirth.Toolchain.Assembler

open Wirth.Lib

-- Symbols lie in the code or at its end, and the fields to relocate in it.
def Contained (obj : ObjectFile) : Prop :=
  (∀ s v, obj.symbols.find? s = some v → 0 ≤ v ∧ v ≤ obj.code.length) ∧
    ∀ r ∈ obj.relocations, 0 ≤ r.offset ∧ r.offset + 2 ≤ obj.code.length

def Confined (lines : List Str) (moduleName sourceName : Str) : Prop :=
  ¬Faults (assembleObject lines moduleName sourceName) ∧
    ∀ obj, assembleObject lines moduleName sourceName = .ok obj → Contained obj

-- The counter of the first pass is within the code at every label, and so is all that a statement
-- reserves.
structure StaysInside (sourceName : Str) (lines : List Str) (size : Int) : Prop where
  label : ∀ k before, k < lines.length → firstPass sourceName (lines.take k) = .ok before →
    labelOf (lines.getD k []) ≠ [] → 0 ≤ before.pc ∧ before.pc ≤ size
  statement : ∀ k before d, k < lines.length → firstPass sourceName (lines.take k) = .ok before →
    distance (statementOf (lines.getD k [])) = some d → 0 < d → 0 ≤ before.pc ∧ before.pc + d ≤ size

section Emitting

variable {names : Names} {pos : Position} {out : Output} {pc : Int}

-- Numbers and registers are either read or refused.

theorem not_faults_parseDigits (text : Str) (base value : Int) (digits : Str) :
    ¬Faults (parseDigits text base value digits) := by
  induction digits generalizing value with
  | nil => exact not_faults_ok value
  | cons ch rest ih =>
    rw [parseDigits]
    split
    · exact ih value
    split
    · exact not_faults_thrown _
    · exact ih _

theorem not_faults_parseNumber (text : Str) : ¬Faults (parseNumber text) := by
  simp only [parseNumber]
  split
  · exact not_faults_thrown _
  generalize numberBase _ = based
  split
  · exact not_faults_thrown _
  simp [faults_bind, not_faults_parseDigits]

theorem not_faults_stringToInt (what : Str) (lo hi : Int) (s : Str) : ¬Faults (stringToInt what lo hi s) := by
  grind [stringToInt, not_faults_thrown, not_faults_ok]

theorem not_faults_regIndex (name : Str) : ¬Faults (regIndex name) := by
  simp only [regIndex]
  grind [not_faults_thrown, faults_bind, not_faults_stringToInt]

theorem safely_parseNumber (text : Str) : Safely (parseNumber text) fun _ => True :=
  ⟨not_faults_parseNumber text, fun _ _ => trivial⟩

theorem safely_regIndex (name : Str) : Safely (regIndex name) fun _ => True :=
  ⟨not_faults_regIndex name, fun _ _ => trivial⟩

-- What is written within the code leaves its length.

abbrev Output.SameLength (out out' : Output) : Prop := out'.code.length = out.code.length

theorem safely_emitByte (h : 0 ≤ pc ∧ pc + 1 ≤ out.code.length) (b : UInt8) :
    Safely (out.emitByte pc b) out.SameLength := by
  refine ⟨?_, fun out' hout => ?_⟩
  · grind [Output.emitByte, faults_bind, store_faults, not_faults_ok]
  · obtain ⟨hfits, rfl⟩ := emitByte_spec hout
    exact extend_length (by simp; omega)

theorem safely_emitValue (h : 0 ≤ pc ∧ pc + 2 ≤ out.code.length) (x : Int) :
    Safely (out.emitValue pc x) out.SameLength := by
  refine ⟨?_, fun out' hout => ?_⟩
  · grind [Output.emitValue, emitU16, faults_bind, storeU16_faults, not_faults_ok]
  · obtain ⟨hfits, rfl⟩ := emitValue_spec hout
    exact extend_length (by simp [u16Bytes]; omega)

theorem safely_emitRegister (h : 0 ≤ pc ∧ pc + 1 ≤ out.code.length) (name : Str) :
    Safely (emitRegister pc name out) out.SameLength :=
  (safely_regIndex name).bind fun _ _ => safely_emitByte h _

theorem safely_emitAddress (h : 0 ≤ pc ∧ pc + 2 ≤ out.code.length) (text : Str) :
    Safely (emitAddress names pos pc text out) out.SameLength := by
  have hvalue := safely_emitValue h
  rw [emitAddress]
  split
  · exact (safely_parseNumber text).bind fun v _ => hvalue v
  rw [emitSymbolU16]
  split
  · exact (hvalue _).bind fun out' hout' => safely_ok hout'
  split
  · exact (hvalue 0).bind fun out' hout' => safely_ok hout'
  · exact safely_thrown _

theorem safely_encodeInstruction {op : Str} {d : Int} (hsize : kInstrSizes.lookup op = some d)
    (h : 0 ≤ pc ∧ pc + d ≤ out.code.length) (args : List Str) :
    Safely (encodeInstruction names pos pc op args out) fun r => out.SameLength r.1 := by
  have hpos : 1 ≤ d := by
    have hall : ∀ p ∈ kInstrSizes, 1 ≤ p.2 := by decide
    exact hall _ (mem_of_lookup hsize)
  -- the size that the table has for the mnemonic of a branch
  have hd : ∀ {name : Str} {n : Int}, kInstrSizes.lookup name = some n → op = name → d = n := by
    rintro name n hname rfl
    exact Option.some.inj (hsize.symm.trans hname)
  rw [encodeInstruction]
  split
  · exact safely_thrown _
  refine (safely_emitByte ⟨h.1, by omega⟩ _).bind fun first hfirst => ?_
  have hreg : ∀ {k : Int} {out' : Output}, 0 ≤ k → k + 1 ≤ d → out.SameLength out' → ∀ name,
      Safely (emitRegister (pc + k) name out') out.SameLength := by
    intro k out' h0 hk hsame name
    refine (safely_emitRegister ⟨by omega, by omega⟩ name).mono fun out'' h'' => ?_
    exact h''.trans hsame
  have hvalue : ∀ {k : Int} {out' : Output}, 0 ≤ k → k + 2 ≤ d → out.SameLength out' → ∀ x,
      Safely (out'.emitValue (pc + k) x) out.SameLength := by
    intro k out' h0 hk hsame x
    refine (safely_emitValue ⟨by omega, by omega⟩ x).mono fun out'' h'' => ?_
    exact h''.trans hsame
  have haddress : ∀ {k : Int} {out' : Output}, 0 ≤ k → k + 2 ≤ d → out.SameLength out' → ∀ text,
      Safely (emitAddress names pos (pc + k) text out') out.SameLength := by
    intro k out' h0 hk hsame text
    refine (safely_emitAddress ⟨by omega, by omega⟩ text).mono fun out'' h'' => ?_
    exact h''.trans hsame
  split_ifs with hbare hprint harith hloadi hmem hjmp hcond
  · exact safely_ok hfirst
  · obtain rfl := hd (n := 2) (by decide) hprint
    split
    · exact (hreg (by decide) (by decide) hfirst _).bind fun out' h' => safely_ok h'
    · exact safely_thrown _
  · obtain rfl : d = 3 := by rcases harith with h | h | h | h | h <;> exact hd (by decide) h
    split
    · refine (hreg (by decide) (by decide) hfirst _).bind fun mid hmid => ?_
      exact (hreg (by decide) (by decide) hmid _).bind fun out' h' => safely_ok h'
    · exact safely_thrown _
  · obtain rfl := hd (n := 4) (by decide) hloadi
    split
    · refine (hreg (by decide) (by decide) hfirst _).bind fun mid hmid => ?_
      refine (safely_parseNumber _).bind fun x _ => ?_
      exact (hvalue (by decide) (by decide) hmid x).bind fun out' h' => safely_ok h'
    · exact safely_thrown _
  · obtain rfl : d = 4 := by rcases hmem with h | h <;> exact hd (by decide) h
    split
    · refine (hreg (by decide) (by decide) hfirst _).bind fun mid hmid => ?_
      exact (haddress (by decide) (by decide) hmid _).bind fun out' h' => safely_ok h'
    · exact safely_thrown _
  · obtain rfl := hd (n := 3) (by decide) hjmp
    split
    · exact (haddress (by decide) (by decide) hfirst _).bind fun out' h' => safely_ok h'
    · exact safely_thrown _
  · obtain rfl : d = 4 := by rcases hcond with h | h <;> exact hd (by decide) h
    split
    · refine (hreg (by decide) (by decide) hfirst _).bind fun mid hmid => ?_
      exact (haddress (by decide) (by decide) hmid _).bind fun out' h' => safely_ok h'
    · exact safely_thrown _
  · exact safely_thrown _

theorem not_faults_clearBytes {n : Nat} {offset : Int} {code : List UInt8}
    (h : n = 0 ∨ 0 ≤ offset ∧ offset + n ≤ code.length) : ¬Faults (clearBytes n offset code) := by
  induction n generalizing offset code with
  | zero => exact not_faults_ok code
  | succ n ih =>
    rw [clearBytes, faults_bind, store_faults]
    rintro (hfault | ⟨mid, hmid, hfault⟩)
    · omega
    · obtain ⟨-, rfl⟩ := store_eq_ok.mp hmid
      grind

-- A statement that has room for all it reserves does not miss the code.
theorem not_faults_emitStatement {sourceName : Str} {st : Emission} {item : Int × Str} {d : Int}
    (hd : distance item.2 = some d) (h : 0 < d → 0 ≤ st.pc ∧ st.pc + d ≤ st.out.code.length) :
    ¬Faults (emitStatement sourceName names st item) := by
  rw [emitStatement]
  split
  · exact not_faults_ok st
  rename_i first operands ht
  rw [distance_cons ht] at hd
  simp only
  split_ifs with hname hentry hbyte hword hspace
  · exact not_faults_ok st
  · split
    · exact not_faults_thrown _
    split
    · exact not_faults_thrown _
    · exact not_faults_ok _
  · split
    · exact not_faults_thrown _
    rw [hbyte] at hd
    obtain rfl : 1 = d := Option.some.inj hd
    exact ((safely_parseNumber _).bind fun v _ => (safely_emitByte (h (by decide)) _).bind fun out hout =>
      safely_ok (Q := fun _ => True) trivial).1
  · split
    · exact not_faults_thrown _
    rw [hword] at hd
    obtain rfl : 2 = d := Option.some.inj hd
    exact ((safely_emitAddress (h (by decide)) _).bind fun out hout => safely_ok (Q := fun _ => True) trivial).1
  · split
    · exact not_faults_thrown _
    rename_i count _
    rw [hspace] at hd
    rw [faults_bind]
    rintro (hfault | ⟨n, hn, hfault⟩)
    · exact not_faults_parseNumber count hfault
    rw [tokenDistance_space hn] at hd
    rw [faults_bind] at hfault
    grind [not_faults_clearBytes, not_faults_ok]
  · rw [not_or] at hname
    have hsilent : isSilent (upper first) = false := by simp [isSilent, hname, hentry]
    have hsize : kInstrSizes.lookup (upper first) = some d := by
      simpa [tokenDistance, hsilent, hword, hspace, hbyte] using hd
    have hpos : 0 < d := by
      have hall : ∀ p ∈ kInstrSizes, 0 < p.2 := by decide
      exact hall _ (mem_of_lookup hsize)
    exact ((safely_encodeInstruction hsize (h hpos) _).bind fun r _ => safely_ok (Q := fun _ => True) trivial).1

end Emitting

section Passes

variable {sourceName : Str} {lines : List Str}

theorem take_succ_getD {k : Nat} (hk : k < lines.length) : lines.take (k + 1) = lines.take k ++ [lines.getD k []] := by
  rw [List.take_succ_eq_append_getElem hk, List.getD_eq_getElem?_getD, List.getElem?_eq_getElem hk]
  rfl

theorem firstPass_succ {k : Nat} (hk : k < lines.length) {after : Layout}
    (h : firstPass sourceName (lines.take (k + 1)) = .ok after) :
    ∃ before, firstPass sourceName (lines.take k) = .ok before ∧
      (after.parsed = before.parsed ∧ statementOf (lines.getD k []) = [] ∨
        ∃ no d, after.parsed = before.parsed ++ [(no, statementOf (lines.getD k []))] ∧
          distance (statementOf (lines.getD k [])) = some d) := by
  rw [take_succ_getD hk] at h
  obtain ⟨before, hbefore, hline⟩ := firstPass_append_singleton h
  have hrange : InRange64 before.pc := (firstPass_inStep ⟨OrdMap.empty, []⟩ 0 (by decide) hbefore).1
  refine ⟨before, hbefore, ?_⟩
  obtain ⟨mid, hmid, hstmt⟩ := layoutLine_cases hline
  have hsame : mid.pc = before.pc ∧ mid.parsed = before.parsed := by
    grind
  rcases hstmt with ⟨rfl, hblank⟩ | hline
  · exact .inl ⟨hsame.2, hblank⟩
  · obtain ⟨-, hparsed, d, hd, -⟩ := layoutStatement_spec (by rw [hsame.1]; exact hrange) hline
    grind

theorem StaysInside.not_faults {size : Nat} (h : StaysInside sourceName lines size) (hsize : (size : Int) < 2 ^ 63)
    (names : Names) {k : Nat} (hk : k ≤ lines.length) {before : Layout}
    (hbefore : firstPass sourceName (lines.take k) = .ok before) :
    ¬Faults (secondPass sourceName names size before.parsed) := by
  induction k generalizing before with
  | zero =>
    cases hbefore
    exact not_faults_ok _
  | succ k ih =>
    obtain ⟨earlier, hearlier, hsame | ⟨no, d, hparsed, hd⟩⟩ := firstPass_succ hk hbefore
    · grind
    · rw [hparsed, secondPass, List.foldlM_append, faults_bind]
      rintro (hfault | ⟨em, hem, hfault⟩)
      · exact ih (Nat.le_of_succ_le hk) hearlier hfault
      have hstep := (firstPass_inStep names size hsize hearlier).2 em hem
      have hlength := (secondPass_sound hsize hem).1
      rw [List.foldlM_cons, faults_bind] at hfault
      rcases hfault with hfault | ⟨last, -, hfault⟩
      · refine not_faults_emitStatement hd (fun hpos => ?_) hfault
        rw [hstep, hlength]
        exact h.statement k earlier d hk hearlier hd hpos
      · exact not_faults_ok last hfault

theorem firstPass_label {layout : Layout} (h : firstPass sourceName lines = .ok layout) {k : Nat} {before : Layout}
    (hk : k < lines.length) (hbefore : firstPass sourceName (lines.take k) = .ok before)
    (hlabel : labelOf (lines.getD k []) ≠ []) :
    layout.symbols.find? (labelOf (lines.getD k [])) = some before.pc := by
  induction lines using List.reverseRecOn generalizing layout with
  | nil => cases hk
  | append_singleton lines raw ih =>
    obtain ⟨last, hlast, hline⟩ := firstPass_append_singleton h
    obtain ⟨mid, hmid, hstmt⟩ := layoutLine_cases hline
    have hrange : InRange64 last.pc := (firstPass_inStep ⟨OrdMap.empty, []⟩ 0 (by decide) hlast).1
    have hsyms : layout.symbols = mid.symbols := by
      rcases hstmt with ⟨rfl, -⟩ | hline
      · rfl
      · refine (layoutStatement_spec ?_ hline).1
        rcases hmid with ⟨_, rfl⟩ | ⟨_, _, rfl⟩ <;> exact hrange
    rw [hsyms]
    by_cases hlt : k < lines.length
    · have hget : (lines ++ [raw]).getD k [] = lines.getD k [] := List.getD_append _ _ _ _ hlt
      rw [List.take_append_of_le_length (Nat.le_of_lt hlt)] at hbefore
      rw [hget] at hlabel ⊢
      have hfind := ih hlast hlt hbefore hlabel
      rcases hmid with ⟨-, rfl⟩ | ⟨-, hnew, rfl⟩
      · exact hfind
      · rw [OrdMap.find?_insert, if_neg, hfind]
        rintro heq
        rw [← heq, hfind] at hnew
        cases hnew
    · rw [List.length_append, List.length_singleton] at hk
      obtain rfl : k = lines.length := by omega
      have hget : (lines ++ [raw]).getD lines.length [] = raw := by
        rw [List.getD_append_right _ _ _ _ (Nat.le_refl _), Nat.sub_self]
        rfl
      rw [List.take_left] at hbefore
      rw [hget] at hlabel ⊢
      obtain rfl : last = before := by
        rw [hlast] at hbefore
        exact Except.ok.inj hbefore
      rcases hmid with ⟨hnone, -⟩ | ⟨-, -, rfl⟩
      · exact absurd hnone hlabel
      · rw [OrdMap.find?_insert, if_pos rfl]

theorem firstPass_unnamed {layout : Layout} (h : firstPass sourceName lines = .ok layout) :
    layout.symbols.find? [] = none := by
  have hinv := foldlM_invariant (layoutLine sourceName)
    (fun st => InRange64 st.pc ∧ st.symbols.find? [] = none) (numbered lines) ?_ ?_ h
  · exact hinv.2
  · rintro st item - st' ⟨hrange, hnone⟩ hstep
    refine ⟨(layoutLine_parsed hrange hstep).1, ?_⟩
    obtain ⟨mid, hmid, hstmt⟩ := layoutLine_cases hstep
    have hmidNone : InRange64 mid.pc ∧ mid.symbols.find? [] = none := by
      rcases hmid with ⟨-, rfl⟩ | ⟨hlabel, -, rfl⟩
      · exact ⟨hrange, hnone⟩
      · exact ⟨hrange, by rw [OrdMap.find?_insert, if_neg (Ne.symm hlabel), hnone]⟩
    rcases hstmt with ⟨rfl, -⟩ | hline
    · exact hmidNone.2
    · rw [(layoutStatement_spec hmidNone.1 hline).1]
      exact hmidNone.2
  · exact ⟨by decide, rfl⟩

end Passes

section Running

variable {names : Names} {sourceName : Str}

theorem secondPass_relocations {size : Nat} (hsize : (size : Int) < 2 ^ 63) {items : List (Int × Str)} {em : Emission}
    (h : secondPass sourceName names size items = .ok em) :
    ∀ r ∈ em.out.relocations, 0 ≤ r.offset ∧ r.offset + 2 ≤ size := by
  have hinv := foldlM_invariant (emitStatement sourceName names)
    (fun e => e.Sound size ∧ ∀ r ∈ e.out.relocations, 0 ≤ r.offset ∧ r.offset + 2 ≤ size) items ?_ ?_ h
  · exact hinv.2
  · rintro e item - e' ⟨hsound, hrelocs⟩ hstep
    refine ⟨emitStatement_sound hsize hsound hstep, ?_⟩
    obtain ⟨bytes, fields, advance, hc, hfits, hout, -⟩ :=
      emitStatement_spec hsound.2 (by rw [hsound.1]; exact hsize) hstep
    intro r hr
    rw [hout, Output.extend, List.mem_append] at hr
    rcases hr with hr | hr
    · exact hrelocs r hr
    obtain ⟨f, hf, rfl⟩ := mem_relocsAt hr
    rcases hc.fields_fit with rfl | ⟨k, s, rfl, hk⟩
    · cases hf
    rw [List.mem_singleton] at hf
    subst hf
    rcases hfits with rfl | ⟨h0, hle⟩
    · exact absurd hk (by simp)
    · rw [hsound.1] at hle
      push_cast
      omega
  · exact ⟨⟨by simp [Emission.start], show InRange64 0 by decide⟩, by simp [Emission.start]⟩

theorem Contributes.length_of_pos {line : Str} {bytes : List UInt8} {fields : List (Nat × Str)} {advance : Int}
    (h : Contributes names line bytes fields advance) (hpos : 0 < advance) : (bytes.length : Int) = advance := by
  cases h with
  | blank _ => exact absurd hpos (by decide)
  | silent _ _ => exact absurd hpos (by decide)
  | byte _ _ _ => rfl
  | word _ _ _ => rfl
  | space _ _ _ =>
    grind
  | instruction _ _ _ he => rw [he.length]

variable {lines : List Str} {moduleName : Str} {obj : ObjectFile} {layout : Layout} {emission : Emission}

-- A run that comes to its end stays inside, except perhaps at its labels.
theorem Assembled.statement_inside (h : Assembled lines moduleName sourceName obj layout emission) {k : Nat}
    {before : Layout} {d : Int} (hk : k < lines.length) (hbefore : firstPass sourceName (lines.take k) = .ok before)
    (hd : distance (statementOf (lines.getD k [])) = some d) (hpos : 0 < d) :
    0 ≤ before.pc ∧ before.pc + d ≤ obj.code.length := by
  obtain ⟨after, hafter, -⟩ := firstPass_take h.first (k + 1)
  obtain ⟨before', hbefore', hcases⟩ := firstPass_succ hk hafter
  rw [hbefore] at hbefore'
  cases hbefore'
  rcases hcases with ⟨-, hblank⟩ | ⟨no, d', hparsed, -⟩
  · rw [hblank] at hd
    cases hd
    exact absurd hpos (by decide)
  obtain ⟨-, reached, hreached, -⟩ := h.emit_line hafter
  rw [Assembled.emit, secondPass, hparsed, foldlM_append_eq_ok] at hreached
  obtain ⟨em, hem, hlast⟩ := hreached
  rw [List.foldlM_cons, bind_eq_ok] at hlast
  obtain ⟨last, hlast, -⟩ := hlast
  have hsound := secondPass_sound h.size_lt hem
  have hpc := (firstPass_inStep ⟨layout.symbols, layout.externs⟩ obj.code.length h.size_lt hbefore).2 em hem
  obtain ⟨bytes, fields, advance, hc, hfits, -, -⟩ :=
    emitStatement_spec hsound.2 (by rw [hsound.1]; exact h.size_lt) hlast
  obtain rfl : advance = d := Option.some.inj (hc.distance_eq.symm.trans hd)
  have hlength := hc.length_of_pos hpos
  rcases hfits with rfl | ⟨h0, hle⟩
  · rw [List.length_nil] at hlength
    omega
  · rw [hsound.1, hpc] at hle
    omega

theorem Assembled.contained_iff (h : Assembled lines moduleName sourceName obj layout emission) :
    Contained obj ↔ StaysInside sourceName lines layout.pc := by
  rw [h.size]
  constructor
  · rintro ⟨hsymbols, -⟩
    refine ⟨fun k before hk hbefore hlabel => ?_, fun k before d hk hbefore hd hpos => ?_⟩
    · refine hsymbols (labelOf (lines.getD k [])) before.pc ?_
      rw [h.symbols_eq]
      exact firstPass_label h.first hk hbefore hlabel
    · exact h.statement_inside hk hbefore hd hpos
  · intro hinside
    constructor
    · intro s v hv
      rw [h.symbols_eq] at hv
      obtain ⟨k, before, hk, hlabel, hbefore, rfl⟩ := firstPass_symbol h.first s v hv
      refine hinside.label k before hk hbefore fun hnone => ?_
      rw [← hlabel, hnone, firstPass_unnamed h.first] at hv
      cases hv
    · rw [h.relocations_eq]
      exact secondPass_relocations h.size_lt h.second

end Running

end Wirth.Toolchain.Assembler

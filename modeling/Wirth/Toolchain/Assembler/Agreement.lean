import Wirth.Toolchain.Assembler.Statement

namespace Wirth.Toolchain.Assembler

open Wirth.Lib Wirth.Toolchain.Json

def labelOf (raw : Str) : Str := (splitLabel (trim (stripComment raw))).1

def statementOf (raw : Str) : Str :=
  let line := trim (stripComment raw)
  if labelOf raw = [] then line else (splitLabel line).2

theorem labelOf_blank {raw : Str} (h : trim (stripComment raw) = []) : labelOf raw = [] := by
  rw [labelOf, h]
  rfl

theorem layoutLine_cases {sourceName : Str} {st st' : Layout} {item : Int × Str}
    (h : layoutLine sourceName st item = .ok st') :
    ∃ mid, (labelOf item.2 = [] ∧ mid = st ∨
        labelOf item.2 ≠ [] ∧ st.symbols.find? (labelOf item.2) = none ∧
          mid = { st with symbols := st.symbols.insert (labelOf item.2) st.pc }) ∧
      (st' = mid ∧ statementOf item.2 = [] ∨
        layoutStatement ⟨sourceName, item.1⟩ (statementOf item.2) mid = .ok st') := by
  simp only [layoutLine] at h
  split_ifs at h with hblank hlabel hdup hrest
  · cases h
    simp [labelOf_blank, statementOf, hblank]
  · refine ⟨st, Or.inl ⟨hlabel, rfl⟩, Or.inr ?_⟩
    rwa [statementOf, if_pos (show labelOf item.2 = [] from hlabel)]
  · simp [Position.fail] at h
  · cases h
    refine ⟨_, Or.inr ⟨hlabel, ?_, rfl⟩, Or.inl ⟨rfl, ?_⟩⟩
    · simpa [labelOf] using hdup
    simp [statementOf, labelOf, hlabel, hrest]
  · refine ⟨_, Or.inr ⟨hlabel, ?_, rfl⟩, Or.inr ?_⟩
    · simpa [labelOf] using hdup
    · rwa [statementOf, if_neg (show labelOf item.2 ≠ [] from hlabel)]

def tokenDistance (op : Str) (operands : List Str) : Option Int :=
  if isSilent op then some 0
  else if op = lit ".WORD" then some 2
  else if op = lit ".SPACE" then operands.head?.bind fun c => (parseNumber c).toOption
  else if op = lit ".BYTE" then some 1
  else kInstrSizes.lookup op

def distance (line : Str) : Option Int :=
  match tokenize line with
  | [] => some 0
  | first :: operands => tokenDistance (upper first) operands

theorem distance_cons {line first : Str} {operands : List Str}
    (ht : tokenize line = first :: operands) :
    distance line = tokenDistance (upper first) operands := by
  rw [distance, ht]

theorem tokenDistance_silent {op : Str} (operands : List Str) (h : isSilent op = true) :
    tokenDistance op operands = some 0 := by
  rw [tokenDistance, if_pos h]

theorem tokenDistance_space {text : Str} {operands : List Str} {count : Int}
    (h : parseNumber text = .ok count) :
    tokenDistance (lit ".SPACE") (text :: operands) = some count := by
  rw [tokenDistance, if_neg (by decide), if_neg (by decide), if_pos rfl]
  simp [h, Except.toOption]

theorem layoutStatement_spec {pos : Position} {line : Str} {st st' : Layout}
    (hpc : InRange64 st.pc) (h : layoutStatement pos line st = .ok st') :
    st'.symbols = st.symbols ∧ st'.parsed = st.parsed ++ [(pos.lineNo, line)] ∧
      ∃ d, distance line = some d ∧ st'.pc = wrap64 (st.pc + d) := by
  have hstay : st.pc = wrap64 (st.pc + 0) := by rw [Int.add_zero, wrap64_eq_self hpc]
  unfold layoutStatement at h
  split at h
  · rename_i ht
    cases h
    exact ⟨rfl, rfl, 0, by rw [distance, ht], hstay⟩
  rename_i first operands ht
  have hdist := distance_cons ht
  simp only at h
  split_ifs at h with hglobal himported hword hspace hbyte hentry
  · split at h
    · simp [Position.fail] at h
    cases h
    rw [hglobal] at hdist
    exact ⟨rfl, rfl, 0, hdist.trans (tokenDistance_silent _ (by decide)), hstay⟩
  · split at h
    · simp [Position.fail] at h
    cases h
    rw [himported] at hdist
    exact ⟨rfl, rfl, 0, hdist.trans (tokenDistance_silent _ (by decide)), hstay⟩
  · cases h
    rw [hword] at hdist
    exact ⟨rfl, rfl, 2, hdist.trans (by rfl), rfl⟩
  · split at h
    · simp [Position.fail] at h
    simp only [bind_eq_ok, Except.ok.injEq] at h
    obtain ⟨count, hcount, rfl⟩ := h
    rw [hspace] at hdist
    exact ⟨rfl, rfl, count, hdist.trans (tokenDistance_space hcount), rfl⟩
  · cases h
    rw [hbyte] at hdist
    exact ⟨rfl, rfl, 1, hdist.trans (by rfl), rfl⟩
  · cases h
    rw [hentry] at hdist
    exact ⟨rfl, rfl, 0, hdist.trans (tokenDistance_silent _ (by decide)), hstay⟩
  · split at h
    · simp [Position.fail] at h
    rename_i size hsize
    cases h
    have hs : isSilent (upper first) = false := by simp [isSilent, hglobal, himported, hentry]
    refine ⟨rfl, rfl, size, hdist.trans ?_, rfl⟩
    grind [tokenDistance]

theorem Contributes.distance_eq {names : Names} {line : Str} {bytes : List UInt8}
    {fields : List (Nat × Str)} {advance : Int} (h : Contributes names line bytes fields advance) :
    distance line = some advance := by
  cases h with
  | blank ht => rw [distance, ht]
  | silent ht hd => rw [distance_cons ht, tokenDistance_silent _ hd]
  | byte ht hd hv =>
    rw [distance_cons ht, hd]
    rfl
  | word ht hd hv =>
    rw [distance_cons ht, hd]
    rfl
  | space ht hd hv => rw [distance_cons ht, hd, tokenDistance_space hv]
  | instruction ht hop hs he =>
    obtain ⟨hsilent, hbyte, hword, hspace⟩ := opmap_not_directive hop
    obtain ⟨shape, hshape, hsize⟩ := lookup_tables hop
    rw [distance_cons ht]
    grind [tokenDistance]

theorem Contributes.of_not_producing {names : Names} {item : Int × Str} {bytes : List UInt8}
    {fields : List (Nat × Str)} {advance : Int}
    (h : Contributes names item.2 bytes fields advance) (hp : producing item = false) :
    advance = 0 := by
  have hd := h.distance_eq
  grind [producing, distance, tokenDistance_silent]

section Run

variable {sourceName : Str} {names : Names} {size : Nat}

-- The second pass keeps the length of the code and a representable counter.
def Emission.Sound (size : Nat) (em : Emission) : Prop :=
  em.out.code.length = size ∧ InRange64 em.pc

theorem emitStatement_sound (hsize : (size : Int) < 2 ^ 63) {em em' : Emission}
    {item : Int × Str} (hem : em.Sound size)
    (h : emitStatement sourceName names em item = .ok em') : em'.Sound size := by
  obtain ⟨hlen, hpc⟩ := hem
  obtain ⟨bytes, fields, advance, _, hfits, hout, hpc'⟩ :=
    emitStatement_spec hpc (by rw [hlen]; exact hsize) h
  refine ⟨?_, by rw [hpc']; exact wrap64_inRange _⟩
  rw [hout]
  rcases hfits with rfl | hfits
  · simpa [Output.extend, splice_nil] using hlen
  · rw [extend_length (by omega), hlen]

theorem secondPass_sound (hsize : (size : Int) < 2 ^ 63) {items : List (Int × Str)} {em : Emission}
    (h : secondPass sourceName names size items = .ok em) : em.Sound size := by
  refine foldlM_invariant _ (Emission.Sound size) items ?_ ?_ h
  · intro em _ _ em' hem hstep
    exact emitStatement_sound hsize hem hstep
  · exact ⟨by simp [Emission.start], show InRange64 0 by decide⟩

-- The two passes are at the same address after the same statements.
def InStep (sourceName : Str) (names : Names) (size : Nat) (st : Layout) : Prop :=
  InRange64 st.pc ∧
    ∀ em, secondPass sourceName names size st.parsed = .ok em → em.pc = st.pc

theorem layoutStatement_inStep (hsize : (size : Int) < 2 ^ 63) {pos : Position} {line : Str}
    {st st' : Layout} (hst : InStep sourceName names size st)
    (h : layoutStatement pos line st = .ok st') : InStep sourceName names size st' := by
  obtain ⟨_, hparsed, d, hd, hpc⟩ := layoutStatement_spec hst.1 h
  refine ⟨by rw [hpc]; exact wrap64_inRange _, ?_⟩
  intro em hem
  rw [secondPass, hparsed, foldlM_append_eq_ok] at hem
  obtain ⟨mid, hmid, hlast⟩ := hem
  rw [List.foldlM_cons, bind_eq_ok] at hlast
  obtain ⟨last, hlast, hnil⟩ := hlast
  cases hnil
  obtain ⟨hlen, hrange⟩ := secondPass_sound hsize hmid
  obtain ⟨bytes, fields, advance, hc, _, _, hpc'⟩ :=
    emitStatement_spec hrange (by rw [hlen]; exact hsize) hlast
  have he : advance = d := by
    have := hc.distance_eq
    rw [hd, Option.some.injEq] at this
    exact this.symm
  rw [hpc', hpc, hst.2 mid hmid, he]

theorem layoutLine_inStep (hsize : (size : Int) < 2 ^ 63) {st st' : Layout} {item : Int × Str}
    (hst : InStep sourceName names size st) (h : layoutLine sourceName st item = .ok st') :
    InStep sourceName names size st' := by
  obtain ⟨mid, hmid, hstmt⟩ := layoutLine_cases h
  have hmid' : InStep sourceName names size mid := by
    rcases hmid with ⟨_, rfl⟩ | ⟨_, _, rfl⟩
    · exact hst
    · exact hst
  grind [layoutStatement_inStep]

theorem firstPass_inStep (names : Names) (size : Nat) (hsize : (size : Int) < 2 ^ 63)
    {lines : List Str} {st : Layout} (h : firstPass sourceName lines = .ok st) :
    InStep sourceName names size st := by
  refine foldlM_invariant _ (InStep sourceName names size) (numbered lines) ?_ ?_ h
  · grind [layoutLine_inStep]
  · refine ⟨by decide, ?_⟩
    intro em hem
    cases hem
    rfl

end Run

theorem numbered_append_singleton (lines : List Str) (raw : Str) :
    numbered (lines ++ [raw]) = numbered lines ++ [((lines.length : Int) + 1, raw)] := by
  simp [numbered, List.zipIdx_append, Int.add_comm]

theorem numbered_take (lines : List Str) (k : Nat) :
    numbered (lines.take k) = (numbered lines).take k := by
  apply List.ext_getElem?
  grind [numbered]

variable {sourceName : Str} {lines : List Str} {st : Layout}

theorem firstPass_append_singleton {raw : Str} {st : Layout}
    (h : firstPass sourceName (lines ++ [raw]) = .ok st) :
    ∃ before, firstPass sourceName lines = .ok before ∧
      layoutLine sourceName before ((lines.length : Int) + 1, raw) = .ok st := by
  rw [firstPass, numbered_append_singleton, foldlM_append_eq_ok] at h
  obtain ⟨before, hbefore, hlast⟩ := h
  rw [List.foldlM_cons, bind_eq_ok] at hlast
  obtain ⟨last, hlast, hnil⟩ := hlast
  cases hnil
  exact ⟨before, hbefore, hlast⟩

theorem firstPass_take
    (h : firstPass sourceName lines = .ok st) (k : Nat) :
    ∃ before, firstPass sourceName (lines.take k) = .ok before ∧
      ((numbered lines).drop k).foldlM (layoutLine sourceName) before = .ok st := by
  rw [firstPass, numbered_take]
  exact foldlM_take_eq_ok _ _ k h

theorem layoutLine_parsed {sourceName : Str} {st st' : Layout} {item : Int × Str}
    (hpc : InRange64 st.pc) (h : layoutLine sourceName st item = .ok st') :
    InRange64 st'.pc ∧ st.parsed <+: st'.parsed := by
  obtain ⟨mid, hmid, hstmt⟩ := layoutLine_cases h
  have hsame : mid.pc = st.pc ∧ mid.parsed = st.parsed := by
    grind
  rcases hstmt with ⟨rfl, -⟩ | hline
  · simp [hsame, hpc]
  · obtain ⟨_, hparsed, d, _, hpc'⟩ := layoutStatement_spec (by rw [hsame.1]; exact hpc) hline
    simp [wrap64_inRange, hpc', hparsed, hsame]

theorem layoutLines_parsed {items : List (Int × Str)} {st st' : Layout}
    (hpc : InRange64 st.pc) (h : items.foldlM (layoutLine sourceName) st = .ok st') :
    st.parsed <+: st'.parsed := by
  have hinv := foldlM_invariant (layoutLine sourceName)
    (fun s => InRange64 s.pc ∧ st.parsed <+: s.parsed) items ?_ ⟨hpc, List.prefix_refl _⟩ h
  · exact hinv.2
  grind [layoutLine_parsed]

-- The value of a symbol is the address that the first pass had at the line of its label.
theorem firstPass_symbol
    (h : firstPass sourceName lines = .ok st) (s : Str) (v : Int)
    (hs : st.symbols.find? s = some v) :
    ∃ k before, k < lines.length ∧ labelOf (lines.getD k []) = s ∧
      firstPass sourceName (lines.take k) = .ok before ∧ before.pc = v := by
  induction lines using List.reverseRecOn generalizing st with
  | nil =>
    cases h
    simp [Layout.start] at hs
  | append_singleton lines raw ih =>
    obtain ⟨before, hbefore, hline⟩ := firstPass_append_singleton h
    obtain ⟨mid, hmid, hstmt⟩ := layoutLine_cases hline
    have hsyms : st.symbols = mid.symbols := by
      have hrange : InRange64 before.pc :=
        (firstPass_inStep ⟨OrdMap.empty, []⟩ 0 (by decide) hbefore).1
      rcases hstmt with ⟨rfl, -⟩ | hline
      · rfl
      · refine (layoutStatement_spec ?_ hline).1
        grind
    have hold : before.symbols.find? s = some v → ∃ k before, k < (lines ++ [raw]).length ∧
        labelOf ((lines ++ [raw]).getD k []) = s ∧
        firstPass sourceName ((lines ++ [raw]).take k) = .ok before ∧ before.pc = v := by
      intro hfind
      obtain ⟨k, st, hk, hlabel, hrun, hpc⟩ := ih hbefore hfind
      refine ⟨k, st, by simp; omega, ?_, ?_, hpc⟩
      · simpa [List.getElem?_append_left hk] using hlabel
      · rwa [List.take_append_of_le_length (by omega)]
    rw [hsyms] at hs
    rcases hmid with ⟨_, rfl⟩ | ⟨_, _, rfl⟩
    · exact hold hs
    · rw [OrdMap.find?_insert] at hs
      split_ifs at hs with heq
      · cases hs
        exact ⟨lines.length, before, by simp, by simp [heq], by simpa using hbefore, rfl⟩
      · exact hold hs

theorem emitStatements_silent {names : Names} {size : Nat}
    (hsize : (size : Int) < 2 ^ 63) {items : List (Int × Str)} {em em' : Emission}
    (hem : em.Sound size) (hitems : ∀ item ∈ items, producing item = false)
    (h : items.foldlM (emitStatement sourceName names) em = .ok em') : em'.pc = em.pc := by
  have hinv := foldlM_invariant (emitStatement sourceName names)
    (fun e => e.Sound size ∧ e.pc = em.pc) items ?_ ⟨hem, rfl⟩ h
  · exact hinv.2
  · intro e item hitem e' he hstep
    obtain ⟨hsound, hpc⟩ := he
    obtain ⟨bytes, fields, advance, hc, _, _, hpc'⟩ :=
      emitStatement_spec hsound.2 (by rw [hsound.1]; exact hsize) hstep
    refine ⟨emitStatement_sound hsize hsound hstep, ?_⟩
    rw [hpc', hc.of_not_producing (hitems item hitem), Int.add_zero, wrap64_eq_self hsound.2, hpc]

-- A successful run of the assembler: the results of its passes and the object they make.
structure Assembled (lines : List Str) (moduleName sourceName : Str) (obj : ObjectFile)
    (layout : Layout) (emission : Emission) : Prop where
  first : firstPass sourceName lines = .ok layout
  size : layout.pc = obj.code.length
  second : secondPass sourceName ⟨layout.symbols, layout.externs⟩ obj.code.length layout.parsed =
    .ok emission
  globals : ∀ g ∈ layout.globals, (layout.symbols.find? g).isSome
  object : obj = ⟨moduleName, obj.code.length, emission.out.code, layout.symbols,
    sortedNames layout.globals, sortedNames layout.externs, emission.entry,
    emission.out.relocations⟩

theorem assembleObject_eq_ok {moduleName sourceName : Str} {obj : ObjectFile}
    (h : assembleObject lines moduleName sourceName = .ok obj) :
    ∃ layout emission, Assembled lines moduleName sourceName obj layout emission := by
  simp only [assembleObject, codeSize, bind_eq_ok, ite_error_eq_ok, Except.ok.injEq] at h
  obtain ⟨layout, hlayout, size, ⟨hpc, rfl⟩, emission, hemission, hglobals, rfl⟩ := h
  have hrange := (firstPass_inStep ⟨OrdMap.empty, []⟩ 0 (by decide) hlayout).1
  have hlen := (secondPass_sound (by have := hrange.2; omega) hemission).1
  refine ⟨layout, emission, hlayout, ?_, ?_, ?_, rfl⟩
  · simp only [hlen]
    omega
  · simpa only [hlen] using hemission
  grind [List.filter_eq_nil_iff, Option.isSome_iff_ne_none]

namespace Assembled

variable {lines : List Str} {moduleName sourceName : Str} {obj : ObjectFile} {layout : Layout}
  {emission : Emission}

abbrev emit (_ : Assembled lines moduleName sourceName obj layout emission)
    (items : List (Int × Str)) : Result Emission :=
  secondPass sourceName ⟨layout.symbols, layout.externs⟩ obj.code.length items

variable (h : Assembled lines moduleName sourceName obj layout emission)

include h

theorem code_eq : obj.code = emission.out.code := by
  rw [h.object]

theorem symbols_eq : obj.symbols = layout.symbols := by
  rw [h.object]

theorem size_lt : (obj.code.length : Int) < 2 ^ 63 := by
  rw [← h.size]
  exact (firstPass_inStep ⟨OrdMap.empty, []⟩ 0 (by decide) h.first).1.2

theorem final_pc : emission.pc = obj.code.length :=
  ((firstPass_inStep _ _ h.size_lt h.first).2 emission h.second).trans h.size

theorem emit_prefix {items : List (Int × Str)} (hitems : items <+: layout.parsed) :
    ∃ reached, h.emit items = .ok reached := by
  obtain ⟨rest, hrest⟩ := hitems
  have hemission := h.second
  grind [secondPass, foldlM_append_eq_ok]

theorem emit_line {k : Nat} {before : Layout} (hbefore : firstPass sourceName (lines.take k) = .ok before) :
    before.parsed <+: layout.parsed ∧
      ∃ reached, h.emit before.parsed = .ok reached ∧ reached.pc = before.pc := by
  obtain ⟨same, hsame, hrest⟩ := firstPass_take h.first k
  rw [hbefore, Except.ok.injEq] at hsame
  subst hsame
  have hstep := firstPass_inStep ⟨layout.symbols, layout.externs⟩ obj.code.length h.size_lt hbefore
  have hpre := layoutLines_parsed hstep.1 hrest
  obtain ⟨reached, hreached⟩ := h.emit_prefix hpre
  exact ⟨hpre, reached, hreached, hstep.2 reached hreached⟩

theorem emit_silent {front items : List (Int × Str)} {mid em : Emission} (hmid : h.emit front = .ok mid)
    (hitems : ∀ item ∈ items, producing item = false) (hem : h.emit (front ++ items) = .ok em) :
    em.pc = mid.pc := by
  rw [emit, secondPass, foldlM_append_eq_ok] at hem
  obtain ⟨same, hsame, hem⟩ := hem
  rw [emit, secondPass, hsame, Except.ok.injEq] at hmid
  subst hmid
  exact emitStatements_silent h.size_lt (secondPass_sound h.size_lt hsame) hitems hem

end Assembled

-- The two passes agree on every address. At each source line, the second pass reaches
-- what follows at the address that the first pass had there, and it ends at the size of
-- the code. A symbol stands for the address of the first statement after its label that
-- leaves something in the code.
theorem assembleLines_passes_agree {lines : List Str} {moduleName sourceName : Str}
    {obj : ObjectFile} (h : assembleObject lines moduleName sourceName = .ok obj) :
    ∃ layout emission,
      firstPass sourceName lines = .ok layout ∧
      secondPass sourceName ⟨layout.symbols, layout.externs⟩ obj.code.length layout.parsed =
        .ok emission ∧
      obj.code = emission.out.code ∧ obj.symbols = layout.symbols ∧
      (∀ k, ∃ before reached, firstPass sourceName (lines.take k) = .ok before ∧
        before.parsed <+: layout.parsed ∧
        secondPass sourceName ⟨layout.symbols, layout.externs⟩ obj.code.length before.parsed =
          .ok reached ∧ reached.pc = before.pc) ∧
      emission.pc = obj.code.length ∧
      (∀ s v, obj.symbols.find? s = some v → ∃ k before reached, k < lines.length ∧
        labelOf (lines.getD k []) = s ∧ firstPass sourceName (lines.take k) = .ok before ∧
        secondPass sourceName ⟨layout.symbols, layout.externs⟩ obj.code.length
          (before.parsed ++
            (layout.parsed.drop before.parsed.length).takeWhile (fun item => !producing item)) =
          .ok reached ∧ reached.pc = v ∧
        ((∀ item ∈ layout.parsed.drop before.parsed.length, producing item = false) →
          v = obj.code.length)) := by
  obtain ⟨layout, emission, hasm⟩ := assembleObject_eq_ok h
  refine ⟨layout, emission, hasm.first, hasm.second, hasm.code_eq, hasm.symbols_eq, ?_,
    hasm.final_pc, ?_⟩
  · intro k
    obtain ⟨before, hbefore, _⟩ := firstPass_take hasm.first k
    obtain ⟨hpre, reached, hreached, hpc⟩ := hasm.emit_line hbefore
    exact ⟨before, reached, hbefore, hpre, hreached, hpc⟩
  · intro s v hs
    rw [hasm.symbols_eq] at hs
    obtain ⟨k, before, hk, hlabel, hbefore, hv⟩ := firstPass_symbol hasm.first s v hs
    obtain ⟨⟨rest, hrest⟩, mid, hmid, hmidpc⟩ := hasm.emit_line hbefore
    have hdrop : layout.parsed.drop before.parsed.length = rest := by
      rw [← hrest, List.drop_left]
    obtain ⟨tail, htail⟩ := List.takeWhile_prefix (fun item => !producing item) (l := rest)
    have hpre : before.parsed ++ rest.takeWhile (fun item => !producing item) <+:
        layout.parsed := ⟨tail, by rw [List.append_assoc, htail, hrest]⟩
    obtain ⟨reached, hreached⟩ := hasm.emit_prefix hpre
    refine ⟨k, before, reached, hk, hlabel, hbefore, by rw [hdrop]; exact hreached, ?_, ?_⟩
    · have hsilent : ∀ item ∈ rest.takeWhile (fun item => !producing item),
          producing item = false := by
        intro item hitem
        simpa using List.mem_takeWhile_imp hitem
      rw [hasm.emit_silent hmid hsilent hreached, hmidpc, hv]
    · intro hnone
      rw [hdrop] at hnone
      have hall : hasm.emit (before.parsed ++ rest) = .ok emission := by
        rw [hrest]
        exact hasm.second
      rw [← hasm.final_pc, hasm.emit_silent hmid hnone hall, hmidpc, hv]

-- A label on a line of its own, one on the line of its statement, and one at the end.
theorem assembleLines_passes_agree_labels :
    let lines := [lit "start:", lit ".GLOBAL start", lit "LOADI R1, 5", lit "x: .WORD start",
      lit ".SPACE 3", lit "JMP x", lit "done:"]
    let symbols := OrdMap.mk [(lit "done", (12 : Int)), (lit "start", 0), (lit "x", 4)] (by decide)
    ∃ layout emission, firstPass (lit "m.asm") lines = .ok layout ∧
      secondPass (lit "m.asm") ⟨symbols, layout.externs⟩ 12 layout.parsed = .ok emission ∧
      emission.out.code = [16, 1, 5, 0, 0, 0, 0, 0, 0, 48, 4, 0] ∧ layout.symbols = symbols ∧
      emission.pc = 12 := by
  intro lines symbols
  have hobj : assembleObject lines (lit "m") (lit "m.asm") =
      .ok ⟨lit "m", 12, [16, 1, 5, 0, 0, 0, 0, 0, 0, 48, 4, 0], symbols, [lit "start"], [], 0,
        [⟨4, 2, lit "start", 0⟩, ⟨10, 2, lit "x", 0⟩]⟩ := by
    decide +kernel
  obtain ⟨layout, emission, hfirst, hsecond, hcode, hsyms, _, hpc, _⟩ :=
    assembleLines_passes_agree hobj
  refine ⟨layout, emission, hfirst, ?_, hcode.symm, hsyms.symm, hpc⟩
  simp only at hsyms
  rw [hsyms]
  exact hsecond

end Wirth.Toolchain.Assembler

import Mathlib.Data.List.Dedup
import Wirth.Toolchain.Assembler.Agreement

namespace Wirth.Toolchain.Assembler

open Wirth.Lib

def spaceCount (line : Str) : Option Int :=
  match tokenize line with
  | first :: count :: _ =>
      if upper first = lit ".SPACE" then (parseNumber count).toOption else none
  | _ => none

def Forward (line : Str) : Prop := ∀ n, spaceCount line = some n → 0 ≤ n

instance (line : Str) : Decidable (Forward line) :=
  match h : spaceCount line with
  | none => isTrue (by simp [Forward, h])
  | some n => decidable_of_iff (0 ≤ n) (by simp [Forward, h])

def NonnegSpaces (lines : List Str) : Prop := ∀ raw ∈ lines, Forward (statementOf raw)

instance (lines : List Str) : Decidable (NonnegSpaces lines) :=
  inferInstanceAs (Decidable (∀ raw ∈ lines, Forward (statementOf raw)))

variable {names : Names} {line : Str} {bytes : List UInt8} {fields : List (Nat × Str)}
  {advance : Int}

theorem Contributes.advance_eq (h : Contributes names line bytes fields advance)
    (hf : Forward line) : advance = bytes.length := by
  cases h with
  | blank ht => rfl
  | silent ht hd => rfl
  | byte ht hd hv => rfl
  | word ht hd hv => rfl
  | space ht hd hv =>
    have hcount : 0 ≤ advance := by
      apply hf
      simp [spaceCount, ht, hd, hv, Except.toOption]
    simp [hcount]
  | instruction ht hop hs he => rw [he.length]

theorem Contributes.fields_fit (h : Contributes names line bytes fields advance) :
    fields = [] ∨ ∃ k s, fields = [(k, s)] ∧ k + 2 ≤ bytes.length := by
  cases h with
  | blank | silent | byte | space => exact Or.inl rfl
  | @word first text operands v symbol ht hd hv =>
    cases symbol with
    | none => exact Or.inl rfl
    | some s => exact Or.inr ⟨0, s, rfl, by simp [u16Bytes]⟩
  | @instruction first operands opcode shape bytes field ht hop hs he =>
    cases field with
    | none => exact Or.inl rfl
    | some f => exact Or.inr ⟨f.1, f.2, rfl, he.field_fits⟩

section Fill

variable {sourceName : Str} {names : Names} {size : Nat}

-- Without negative counts the second pass fills the code from the left, and the fields
-- entered so far lie in order in the part that is filled.
structure Emission.Filled (size : Nat) (em : Emission) : Prop where
  length : em.out.code.length = size
  nonneg : 0 ≤ em.pc
  le : em.pc ≤ size
  fields : ∀ r ∈ em.out.relocations, r.size = 2 ∧ 0 ≤ r.offset ∧ r.offset + 2 ≤ em.pc
  ordered : em.out.relocations.Pairwise fun r s => r.offset + 2 ≤ s.offset

theorem mem_relocsAt {pc : Nat} {fields : List (Nat × Str)} {r : Reloc}
    (hr : r ∈ relocsAt pc fields) :
    ∃ f ∈ fields, r = ⟨((pc + f.1 : Nat) : Int), 2, f.2, 0⟩ := by
  obtain ⟨f, hf, rfl⟩ := List.mem_map.mp hr
  exact ⟨f, hf, rfl⟩

theorem emitStatement_filled (hsize : (size : Int) < 2 ^ 63) {em em' : Emission}
    {item : Int × Str} (hem : em.Filled size) (hf : Forward item.2)
    (h : emitStatement sourceName names em item = .ok em') :
    ∃ bytes fields, Contributes names item.2 bytes fields bytes.length ∧ em'.Filled size ∧
      em'.pc = em.pc + bytes.length ∧ em'.out = em.out.extend em.pc.toNat bytes fields := by
  have h0 := hem.nonneg
  have hle := hem.le
  have hlen := hem.length
  have hrange : InRange64 em.pc := ⟨by omega, by omega⟩
  obtain ⟨bytes, fields, advance, hc, hfits, hout, hpc⟩ :=
    emitStatement_spec hrange (by rw [hlen]; exact hsize) h
  obtain rfl := hc.advance_eq hf
  have hroom : em.pc + bytes.length ≤ size := by
    rcases hfits with rfl | hfits
    · simpa using hle
    · omega
  rw [wrap64_eq_self ⟨by omega, by omega⟩] at hpc
  refine ⟨bytes, fields, hc, ⟨?_, by omega, by omega, ?_, ?_⟩, hpc, hout⟩
  · rw [hout, extend_length (by omega), hlen]
  · intro r hr
    rw [hout, Output.extend, List.mem_append] at hr
    rcases hr with hr | hr
    · have := hem.fields r hr
      omega
    · obtain ⟨f, hf, rfl⟩ := mem_relocsAt hr
      rcases hc.fields_fit with rfl | ⟨k, s, rfl, hk⟩
      · cases hf
      grind
  · rw [hout, Output.extend, List.pairwise_append]
    refine ⟨hem.ordered, ?_, ?_⟩
    · rcases hc.fields_fit with rfl | ⟨k, s, rfl, _⟩ <;> simp [relocsAt]
    · intro r hr s hs
      obtain ⟨f, _, rfl⟩ := mem_relocsAt hs
      have := hem.fields r hr
      push_cast
      omega

structure Emission.Extends (em em' : Emission) : Prop where
  pc : em.pc ≤ em'.pc
  code : ∀ k : Nat, (k : Int) < em.pc → em'.out.code.getD k 0 = em.out.code.getD k 0
  fields : ∃ more, em'.out.relocations = em.out.relocations ++ more ∧ ∀ r ∈ more, em.pc ≤ r.offset

theorem Emission.Extends.refl (em : Emission) : em.Extends em :=
  ⟨le_refl _, fun _ _ => rfl, [], by simp, by simp⟩

theorem Emission.Extends.trans {a b c : Emission} (hab : a.Extends b) (hbc : b.Extends c) :
    a.Extends c := by
  obtain ⟨more, hmore, hge⟩ := hab.fields
  obtain ⟨more', hmore', hge'⟩ := hbc.fields
  have hpc := hab.pc
  refine ⟨le_trans hpc hbc.pc, ?_, more ++ more', by rw [hmore', hmore, List.append_assoc], ?_⟩
  · intro k hk
    rw [hbc.code k (by omega), hab.code k hk]
  grind

theorem Emission.Filled.extends {em em' : Emission} {bytes : List UInt8}
    {fields : List (Nat × Str)} (hem : em.Filled size) (hem' : em'.Filled size)
    (hpc : em'.pc = em.pc + bytes.length)
    (hout : em'.out = em.out.extend em.pc.toNat bytes fields) : em.Extends em' := by
  have hlen := hem.length
  have hle := hem'.le
  refine ⟨by omega, ?_, relocsAt em.pc.toNat fields, by rw [hout, Output.extend], ?_⟩
  · intro k hk
    rw [hout, Output.extend, splice_getD (by omega), if_neg (by omega)]
  grind [mem_relocsAt]

theorem emitStatements_filled (hsize : (size : Int) < 2 ^ 63) {items : List (Int × Str)}
    {em em' : Emission} (hem : em.Filled size) (hitems : ∀ item ∈ items, Forward item.2)
    (h : items.foldlM (emitStatement sourceName names) em = .ok em') :
    em'.Filled size ∧ em.Extends em' := by
  refine foldlM_invariant (emitStatement sourceName names)
    (fun e => e.Filled size ∧ em.Extends e) items ?_ ⟨hem, .refl em⟩ h
  rintro e item hitem e' ⟨he, hext⟩ hstep
  obtain ⟨bytes, fields, _, he', hpc, hout⟩ :=
    emitStatement_filled hsize he (hitems item hitem) hstep
  exact ⟨he', hext.trans (he.extends he' hpc hout)⟩

theorem secondPass_filled (hsize : (size : Int) < 2 ^ 63) {items : List (Int × Str)}
    {em : Emission} (hitems : ∀ item ∈ items, Forward item.2)
    (h : secondPass sourceName names size items = .ok em) : em.Filled size :=
  (emitStatements_filled hsize ⟨by simp [Emission.start], le_refl _, by simp [Emission.start],
    by simp [Emission.start], by simp [Emission.start]⟩ hitems h).1

end Fill

theorem firstPass_parsed_mem {sourceName : Str} {lines : List Str} {st : Layout}
    (h : firstPass sourceName lines = .ok st) {item : Int × Str} (hitem : item ∈ st.parsed) :
    ∃ raw ∈ lines, item.2 = statementOf raw := by
  induction lines using List.reverseRecOn generalizing st with
  | nil =>
    cases h
    simp [Layout.start] at hitem
  | append_singleton lines raw ih =>
    obtain ⟨before, hbefore, hline⟩ := firstPass_append_singleton h
    obtain ⟨mid, hmid, hstmt⟩ := layoutLine_cases hline
    have hrange : InRange64 before.pc :=
      (firstPass_inStep ⟨OrdMap.empty, []⟩ 0 (by decide) hbefore).1
    have hsame : mid.pc = before.pc ∧ mid.parsed = before.parsed := by
      grind
    have hold : item ∈ before.parsed → ∃ r ∈ lines ++ [raw], item.2 = statementOf r := by
      intro hmem
      obtain ⟨r, hr, he⟩ := ih hbefore hmem
      exact ⟨r, List.mem_append_left _ hr, he⟩
    rcases hstmt with ⟨rfl, -⟩ | hline
    · rw [hsame.2] at hitem
      exact hold hitem
    · obtain ⟨_, hparsed, _⟩ := layoutStatement_spec (by rw [hsame.1]; exact hrange) hline
      grind

theorem mem_sortedNames {names : List Str} {s : Str} : s ∈ sortedNames names ↔ s ∈ names := by
  simp [sortedNames]

namespace Assembled

variable {lines : List Str} {moduleName sourceName : Str} {obj : ObjectFile} {layout : Layout}
  {emission : Emission}

variable (h : Assembled lines moduleName sourceName obj layout emission)

include h

theorem forward (hs : NonnegSpaces lines) : ∀ item ∈ layout.parsed, Forward item.2 := by
  intro item hitem
  obtain ⟨raw, hraw, he⟩ := firstPass_parsed_mem h.first hitem
  rw [he]
  exact hs raw hraw

theorem relocations_eq : obj.relocations = emission.out.relocations := by
  rw [h.object]

theorem filled (hs : NonnegSpaces lines) : emission.Filled obj.code.length :=
  secondPass_filled h.size_lt (h.forward hs) h.second

theorem wellFormed (hs : NonnegSpaces lines) : obj.WellFormed := by
  have hfilled := h.filled hs
  have hglobals : obj.globals = sortedNames layout.globals := by rw [h.object]
  refine ⟨congrArg ObjectFile.size h.object, ?_, ?_, ?_, ?_, ?_⟩
  · -- a symbol is an address that the second pass has been at
    intro s v hv
    rw [h.symbols_eq] at hv
    obtain ⟨k, before, _, _, hbefore, rfl⟩ := firstPass_symbol h.first s v hv
    obtain ⟨hpre, reached, hreached, hpc⟩ := h.emit_line hbefore
    have hreach := secondPass_filled h.size_lt
      (fun item hitem => h.forward hs item (hpre.subset hitem)) hreached
    rw [← hpc]
    exact ⟨hreach.nonneg, hreach.le⟩
  · intro g hg
    rw [hglobals, mem_sortedNames] at hg
    rw [h.symbols_eq]
    exact h.globals g hg
  · rw [hglobals]
    exact List.nodup_dedup _
  · intro r hr
    rw [h.relocations_eq] at hr
    have := hfilled.fields r hr
    have := hfilled.le
    omega
  · rw [h.relocations_eq]
    exact hfilled.ordered

-- Where a statement ends up: its bytes follow what came before it, and the fields of the
-- module that touch them are the ones it entered itself.
theorem statement_placed (hs : NonnegSpaces lines) {front back : List (Int × Str)}
    {item : Int × Str} (hparsed : layout.parsed = front ++ item :: back) {reached : Emission}
    (hreached : h.emit front = .ok reached) :
    ∃ bytes fields earlier later,
      Contributes ⟨layout.symbols, layout.externs⟩ item.2 bytes fields bytes.length ∧
      0 ≤ reached.pc ∧ reached.pc + bytes.length ≤ obj.code.length ∧
      (∀ k < bytes.length, obj.code.getD (reached.pc.toNat + k) 0 = bytes.getD k 0) ∧
      obj.relocations = earlier ++ relocsAt reached.pc.toNat fields ++ later ∧
      (∀ r ∈ earlier, r.offset + 2 ≤ reached.pc) ∧
      (∀ r ∈ later, reached.pc + bytes.length ≤ r.offset) := by
  have hforward := h.forward hs
  rw [hparsed] at hforward
  have hfilled := secondPass_filled h.size_lt
    (fun x hx => hforward x (List.mem_append_left _ hx)) hreached
  have hrun := h.second
  rw [hparsed, secondPass, foldlM_append_eq_ok] at hrun
  obtain ⟨same, hsame, hrun⟩ := hrun
  rw [emit, secondPass, hsame, Except.ok.injEq] at hreached
  subst hreached
  rw [List.foldlM_cons, bind_eq_ok] at hrun
  obtain ⟨next, hnext, hrest⟩ := hrun
  obtain ⟨bytes, fields, hc, hnextFilled, hpc, hout⟩ :=
    emitStatement_filled h.size_lt hfilled (hforward item (by simp)) hnext
  obtain ⟨_, hext⟩ := emitStatements_filled h.size_lt hnextFilled
    (fun x hx => hforward x (by simp [hx])) hrest
  obtain ⟨later, hlater, hge⟩ := hext.fields
  have h0 := hfilled.nonneg
  have hle := hnextFilled.le
  have hlen := hfilled.length
  refine ⟨bytes, fields, same.out.relocations, later, hc, h0, by omega, ?_, ?_, ?_, ?_⟩
  · intro k hk
    rw [h.code_eq, hext.code _ (by push_cast; omega), hout, Output.extend,
      splice_getD (by omega), if_pos (by omega), Nat.add_sub_cancel_left]
  · rw [h.relocations_eq, hlater, hout, Output.extend]
  · intro r hr
    exact (hfilled.fields r hr).2.2
  · intro r hr
    rw [← hpc]
    exact hge r hr

end Assembled

-- An object file that comes from the assembler, from a source without negative counts.
def FromSource (obj : ObjectFile) : Prop :=
  ∃ lines moduleName sourceName, NonnegSpaces lines ∧
    assembleObject lines moduleName sourceName = .ok obj

theorem FromSource.wellFormed {obj : ObjectFile} (h : FromSource obj) : obj.WellFormed := by
  obtain ⟨lines, moduleName, sourceName, hspaces, hobj⟩ := h
  obtain ⟨layout, emission, hasm⟩ := assembleObject_eq_ok hobj
  exact hasm.wellFormed hspaces

end Wirth.Toolchain.Assembler

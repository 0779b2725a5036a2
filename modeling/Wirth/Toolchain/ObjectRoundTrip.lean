import Wirth.Toolchain.Assembler.Placement
import Wirth.Toolchain.Json.RoundTrip

namespace Wirth.Toolchain

open Wirth.Lib Wirth.Toolchain.Json

structure ObjectFile.Representable (o : ObjectFile) : Prop where
  size : InRange64 o.size
  symbols : ∀ p ∈ o.symbols.entries, InRange64 p.2
  entry : InRange64 o.entry
  relocations : ∀ r ∈ o.relocations, InRange64 r.offset ∧ InRange64 r.size ∧ InRange64 r.addend

variable {D : Type}

-- Object files are written without floating point numbers.

theorem members_built {entries : List (Str × Value D)} (h : ∀ p ∈ entries, p.2.Built) :
    (members entries).Built := by
  refine .obj (foldl_assignEntry_sorted entries List.Pairwise.nil) ?_
  intro p hp
  rcases mem_foldl_assignEntry hp with hp | hp
  · exact h p hp
  · cases hp

theorem relocJson_built (r : Reloc) : (relocJson r : Value D).Built := by
  refine members_built ?_
  simp only [List.forall_mem_cons, List.not_mem_nil, false_implies, implies_true, and_true]
  exact ⟨.int _, .int _, .str _, .int _⟩

theorem codeJson_built (code : List UInt8) : (codeJson code : Value D).Built := by
  refine .arr ?_
  intro v hv
  obtain ⟨b, _, rfl⟩ := List.mem_map.mp hv
  exact .int _

theorem symbolsJson_built (symbols : OrdMap Str Int) : (symbolsJson symbols : Value D).Built := by
  refine .obj ?_ ?_
  · rw [SortedKeys, List.pairwise_map]
    exact symbols.sorted
  · intro p hp
    obtain ⟨q, _, rfl⟩ := List.mem_map.mp hp
    exact .int _

theorem namesJson_built (names : List Str) : (namesJson names : Value D).Built := by
  refine .arr ?_
  intro v hv
  obtain ⟨s, _, rfl⟩ := List.mem_map.mp hv
  exact .str s

theorem objectJson_built (o : ObjectFile) : (objectJson o : Value D).Built := by
  refine members_built ?_
  simp only [objectMembers, List.forall_mem_cons, List.not_mem_nil, false_implies, implies_true,
    and_true]
  refine ⟨.str _, .str _, .int _, codeJson_built _, symbolsJson_built _, namesJson_built _,
    namesJson_built _, .int _, .arr ?_⟩
  simp [relocJson_built]

-- Reading back what was written.

theorem objectMembers_nodup (o : ObjectFile) :
    ((objectMembers o : List (Str × Value D)).map Prod.fst).Nodup := by
  show [lit "format", lit "module", lit "size", lit "code", lit "symbols", lit "globals",
    lit "externs", lit "entry", lit "relocations"].Nodup
  decide

variable [Floating D]

theorem mapM_map_eq_ok {α β : Type} (f : α → β) (g : β → Result α) {items : List α}
    (h : ∀ a ∈ items, g (f a) = .ok a) : (items.map f).mapM g = .ok items := by
  induction items with
  | nil => rfl
  | cons a rest ih =>
    rw [List.map_cons, List.mapM_cons, h a (by simp), ok_bind,
      ih fun b hb => h b (List.mem_cons_of_mem _ hb)]
    rfl

theorem parseSymbols_symbolsJson {symbols : OrdMap Str Int}
    (h : ∀ p ∈ symbols.entries, InRange64 p.2) :
    parseSymbols (symbols.entries.map fun p => (p.1, (Value.ofInt p.2 : Value D))) =
      .ok symbols := by
  have hrun : ∀ (entries : List (Str × Int)) (m : OrdMap Str Int),
      (∀ p ∈ entries, InRange64 p.2) →
      (entries.map fun p => (p.1, (Value.ofInt p.2 : Value D))).foldlM
        (fun symbols p => do .ok (symbols.insert p.1 (← p.2.asInt))) m =
        (.ok (entries.foldl (fun acc p => acc.insert p.1 p.2) m) : Result _) := by
    intro entries
    induction entries with
    | nil => intro m _; rfl
    | cons p rest ih =>
      intro m hp
      rw [List.map_cons, List.foldlM_cons, Value.asInt_ofInt (hp p (by simp)), ok_bind, ok_bind,
        ih _ fun q hq => hp q (List.mem_cons_of_mem _ hq)]
      rfl
  rw [parseSymbols, hrun _ _ h, OrdMap.foldl_insert_entries]

theorem parseReloc_relocJson {r : Reloc}
    (h : InRange64 r.offset ∧ InRange64 r.size ∧ InRange64 r.addend) :
    parseReloc (relocJson r : Value D) = .ok r := by
  have hnodup : ([(lit "offset", (Value.ofInt r.offset : Value D)), (lit "size", .ofInt r.size),
      (lit "symbol", .str r.symbol), (lit "addend", .ofInt r.addend)].map Prod.fst).Nodup := by
    show [lit "offset", lit "size", lit "symbol", lit "addend"].Nodup
    decide
  rw [parseReloc, relocJson, members, Value.asObject, ok_bind]
  simp only [atKey_assigned hnodup, lookup_assigned hnodup]
  show (Value.asInt (Value.ofInt r.offset : Value D) >>= fun offset =>
    Value.asInt (Value.ofInt r.size : Value D) >>= fun size =>
      Value.asInt (Value.ofInt r.addend : Value D) >>= fun addend =>
        (.ok ⟨offset, size, r.symbol, addend⟩ : Result Reloc)) = _
  rw [Value.asInt_ofInt h.1, Value.asInt_ofInt h.2.1, Value.asInt_ofInt h.2.2]
  rfl

theorem parseObject_objectJson {o : ObjectFile} (h : o.Representable) :
    parseObject (objectJson o : Value D) = .ok o := by
  have hnodup := objectMembers_nodup (D := D) o
  have hformat : isObjectFormat (assigned (objectMembers o : List (Str × Value D))) = true := by
    rw [isObjectFormat, lookup_assigned hnodup]
    rfl
  have hsymbols := parseSymbols_symbolsJson (D := D) h.symbols
  have hcode := parseCode_codeJson (D := D) o.code
  have hglobals := mapM_map_eq_ok Value.str (Value.asString (D := D)) (fun s (_ : s ∈ o.globals) => rfl)
  have hexterns := mapM_map_eq_ok Value.str (Value.asString (D := D)) (fun s (_ : s ∈ o.externs) => rfl)
  have hrelocs := mapM_map_eq_ok relocJson (parseReloc (D := D))
    (fun r hr => parseReloc_relocJson (h.relocations r hr))
  simp only [objectJson, members, parseObject, hformat, atKey_assigned hnodup, optional,
    lookup_assigned hnodup]
  show (Value.asInt (Value.ofInt o.size : Value D) >>= fun size =>
    parseCode (o.code.map fun b => (Value.ofInt b.toNat : Value D)) >>= fun code =>
    parseSymbols (o.symbols.entries.map fun p => (p.1, (Value.ofInt p.2 : Value D))) >>= fun symbols =>
    (o.globals.map Value.str).mapM (Value.asString (D := D)) >>= fun globals =>
    (o.externs.map Value.str).mapM (Value.asString (D := D)) >>= fun externs =>
    Value.asInt (Value.ofInt o.entry : Value D) >>= fun entry =>
    (o.relocations.map relocJson).mapM (parseReloc (D := D)) >>= fun relocations =>
      (.ok ⟨o.module, size, code, symbols, globals, externs, entry, relocations⟩ :
        Result ObjectFile)) = _
  rw [Value.asInt_ofInt h.size, hcode, hsymbols, hglobals, hexterns, Value.asInt_ofInt h.entry,
    hrelocs]
  rfl

namespace Assembler

theorem emitStatement_entry {sourceName : Str} {names : Names} {em em' : Emission}
    {item : Int × Str} (h : emitStatement sourceName names em item = .ok em') :
    em'.entry = em.entry ∨ ∃ s, names.symbols.find? s = some em'.entry := by
  unfold emitStatement at h
  split at h
  · cases h
    exact Or.inl rfl
  simp only at h
  split_ifs at h
  · cases h
    exact Or.inl rfl
  · -- `.ENTRY`
    split at h
    · simp [Position.fail] at h
    rename_i sym _ _
    split at h
    · simp [Position.fail] at h
    rename_i value hvalue
    cases h
    exact Or.inr ⟨sym, hvalue⟩
  all_goals
    try split at h
    all_goals
      simp only [Position.fail, bind_eq_ok, Except.ok.injEq, reduceCtorEq] at h
  · obtain ⟨_, _, _, _, rfl⟩ := h
    exact Or.inl rfl
  · obtain ⟨_, _, rfl⟩ := h
    exact Or.inl rfl
  · obtain ⟨_, _, _, _, rfl⟩ := h
    exact Or.inl rfl
  · obtain ⟨_, _, rfl⟩ := h
    exact Or.inl rfl

structure Emission.Recorded (size : Nat) (em : Emission) : Prop where
  sound : em.Sound size
  entry : InRange64 em.entry
  relocations : ∀ r ∈ em.out.relocations, InRange64 r.offset ∧ InRange64 r.size ∧ InRange64 r.addend

theorem emitStatement_recorded {sourceName : Str} {names : Names} {size : Nat}
    (hsize : (size : Int) < 2 ^ 63) (hsymbols : ∀ s v, names.symbols.find? s = some v → InRange64 v)
    {em em' : Emission} {item : Int × Str} (hem : em.Recorded size)
    (h : emitStatement sourceName names em item = .ok em') : em'.Recorded size := by
  obtain ⟨hlen, hpc⟩ := hem.sound
  obtain ⟨bytes, fields, advance, hc, hfits, hout, _⟩ :=
    emitStatement_spec hpc (by rw [hlen]; exact hsize) h
  refine ⟨emitStatement_sound hsize hem.sound h, ?_, ?_⟩
  · rcases emitStatement_entry h with hentry | ⟨s, hs⟩
    · rw [hentry]
      exact hem.entry
    · exact hsymbols s _ hs
  · intro r hr
    rw [hout, Output.extend, List.mem_append] at hr
    rcases hr with hr | hr
    · exact hem.relocations r hr
    · obtain ⟨f, hf, rfl⟩ := mem_relocsAt hr
      rcases hc.fields_fit with rfl | ⟨k, s, rfl, hk⟩
      · cases hf
      · 
        have hne : bytes ≠ [] := by
          rintro rfl
          simp at hk
        have hfits := hfits.resolve_left hne
        grind [InRange64]

theorem Assembled.representable {lines : List Str} {moduleName sourceName : Str}
    {obj : ObjectFile} {layout : Layout} {emission : Emission}
    (h : Assembled lines moduleName sourceName obj layout emission) : obj.Representable := by
  have hsize := h.size_lt
  have hsymbols : ∀ s v, layout.symbols.find? s = some v → InRange64 v := by
    intro s v hv
    obtain ⟨k, before, _, _, hbefore, rfl⟩ := firstPass_symbol h.first s v hv
    exact (firstPass_inStep ⟨OrdMap.empty, []⟩ 0 (by decide) hbefore).1
  have hrecorded : emission.Recorded obj.code.length := by
    refine foldlM_invariant _ (Emission.Recorded obj.code.length) layout.parsed ?_ ?_ h.second
    · grind [emitStatement_recorded]
    · exact ⟨⟨by simp [Emission.start], show InRange64 0 by decide⟩, show InRange64 0 by decide,
        by simp [Emission.start]⟩
  rw [h.object]
  refine ⟨show InRange64 obj.code.length from ⟨by omega, hsize⟩, ?_, hrecorded.entry, hrecorded.relocations⟩
  intro p hp
  exact hsymbols p.1 p.2 ((OrdMap.find?_eq_some_iff _ _ _).mpr hp)

end Assembler

-- What `dump` writes `parseText` reads back, for every value without doubles. So an object
-- file that the assembler wrote is read back as it was.
theorem dump_roundTrip :
    (∀ v : Value D, v.Built → parseText (dump v) = .ok v) ∧
    (∀ (lines : List Str) (moduleName sourceName : Str) (obj : ObjectFile),
      Assembler.assembleObject lines moduleName sourceName = .ok obj →
      (parseText (dump (objectJson obj : Value D)) >>= parseObject (D := D)) = .ok obj) := by
  refine ⟨fun v hv => parseText_dump_of_built hv, ?_⟩
  intro lines moduleName sourceName obj h
  obtain ⟨layout, emission, hasm⟩ := Assembler.assembleObject_eq_ok h
  rw [parseText_dump_of_built (objectJson_built obj), ok_bind]
  exact parseObject_objectJson hasm.representable

-- Control characters and bytes above 127, and a module that imports, exports and jumps.
theorem dump_roundTrip_module :
    let obj : ObjectFile := ⟨lit "m", 6, [48, 0, 0, 48, 0, 0],
      OrdMap.mk [(lit "start", (0 : Int))] (by decide), [lit "start"], [lit "putc"], 0,
      [⟨1, 2, lit "start", 0⟩, ⟨4, 2, lit "putc", 0⟩]⟩
    let v : Value Empty := .arr [.str [0, 10, 34, 92, 200], .obj []]
    parseText (dump v) = .ok v ∧
    (parseText (dump (objectJson obj : Value Empty)) >>= parseObject (D := Empty)) = .ok obj := by
  intro obj v
  refine ⟨dump_roundTrip.1 v ?_, dump_roundTrip.2 [lit ".GLOBAL start", lit ".EXTERN putc",
    lit "start: JMP start", lit "JMP putc"] (lit "m") (lit "m.asm") obj (by decide +kernel)⟩
  refine .arr ?_
  simp only [List.forall_mem_cons, List.not_mem_nil, false_implies, implies_true, and_true]
  exact ⟨.str _, .obj List.Pairwise.nil (by simp)⟩

end Wirth.Toolchain

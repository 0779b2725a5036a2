import Wirth.Toolchain.Assembler.Placement
import Wirth.Toolchain.Linker.Placed

namespace Wirth.Toolchain.Linker

open Wirth.Lib Wirth.Toolchain.Json

-- What a symbol stands for in module `i`: its own definition, or else that of a module
-- which exports it.
inductive Denotes (modules : List ModuleView) (i : Nat) (symbol : Str) : Int → Prop
  | own {m : ModuleView} {v : Int} (hm : modules[i]? = some m)
      (hv : m.data.symbols.find? symbol = some v) :
      Denotes modules i symbol (offsetOf modules i + v)
  | imported {m m' : ModuleView} {j : Nat} {v : Int} (hm : modules[i]? = some m)
      (hnone : m.data.symbols.find? symbol = none) (hj : modules[j]? = some m')
      (hg : symbol ∈ m'.data.globals) (hv : m'.data.symbols.find? symbol = some v) :
      Denotes modules i symbol (offsetOf modules j + v)

inductive Rejected (modules : List ModuleView) (mode : Str) (entrySymbol : Option Str) : Prop
  | mode (h : mode ≠ absolute ∧ mode ≠ relocatable)
  | duplicate {i j : Nat} {a b : ModuleView} {name : Str} (hij : i < j)
      (hi : modules[i]? = some a) (hj : modules[j]? = some b) (ha : name ∈ a.data.globals)
      (hb : name ∈ b.data.globals)
  | unresolved {m : ModuleView} {r : Reloc} (hm : m ∈ modules) (hr : r ∈ m.data.relocations)
      (hown : m.data.symbols.find? r.symbol = none)
      (hglobal : ∀ m' ∈ modules, r.symbol ∉ m'.data.globals)
  | entry {name : Str} (he : entrySymbol = some name) (hn : ∀ m ∈ modules, name ∉ m.data.globals)

-- A relocatable image of the modules: the concatenated codes with every relocated field
-- holding what its symbol denotes, and the list of those fields.
structure Realizes (modules : List ModuleView) (image : Image) : Prop where
  length : image.code.length = (concatenated modules).length
  plain : ∀ i m, modules[i]? = some m → ∀ k < m.data.code.length,
    (∀ r ∈ m.data.relocations, ¬InField k r.offset) →
      image.code.getD (offsetOf modules i + k) 0 = m.data.code.getD k 0
  field : ∀ i m, modules[i]? = some m → ∀ r ∈ m.data.relocations, ∃ value,
    (∀ v, Denotes modules i r.symbol v ↔ v = value) ∧
      (u16At image.code (offsetOf modules i + r.offset.toNat) : Int) = (value + r.addend) % 65536
  pending : image.relocations = (modules.mapIdx fun i m =>
    m.data.relocations.map fun r => (offsetOf modules i : Int) + r.offset).flatten

variable {items : List (ModuleView × Str)} {g : OrdMap Str Int}

theorem foldlM_collectGlobal_ok
    (hdef : ∀ e ∈ items, (e.1.data.symbols.find? e.2).isSome)
    (hnodup : (items.map Prod.snd).Nodup) (hfresh : ∀ e ∈ items, g.find? e.2 = none) :
    ∃ g', items.foldlM collectGlobal g = .ok g' ∧
      (∀ e ∈ items, ∀ v, e.1.data.symbols.find? e.2 = some v →
        g'.find? e.2 = some (wrap64 (e.1.base + v))) ∧
      ∀ n, n ∉ items.map Prod.snd → g'.find? n = g.find? n := by
  induction items generalizing g with
  | nil => exact ⟨g, rfl, by simp, fun _ _ => rfl⟩
  | cons e rest ih =>
    obtain ⟨value, hvalue⟩ := Option.isSome_iff_exists.mp (hdef e (by simp))
    rw [List.map_cons, List.nodup_cons] at hnodup
    have hstep : collectGlobal g e = .ok (g.insert e.2 (wrap64 (e.1.base + value))) := by
      simp [collectGlobal, hvalue, hfresh e (by simp)]
    have hfresh' : ∀ x ∈ rest, (g.insert e.2 (wrap64 (e.1.base + value))).find? x.2 = none := by
      intro x hx
      rw [OrdMap.find?_insert_of_ne]
      · exact hfresh x (List.mem_cons_of_mem _ hx)
      · grind
    obtain ⟨g', hrun, hin, hout⟩ := ih (fun x hx => hdef x (List.mem_cons_of_mem _ hx))
      hnodup.2 hfresh'
    refine ⟨g', by rw [List.foldlM_cons, hstep, ok_bind, hrun], ?_, ?_⟩
    · grind [OrdMap.find?_insert_self]
    · 
      grind [OrdMap.find?_insert_of_ne]

theorem foldlM_collectGlobal_thrown
    (hdef : ∀ e ∈ items, (e.1.data.symbols.find? e.2).isSome)
    (h : ¬((items.map Prod.snd).Nodup ∧ ∀ e ∈ items, g.find? e.2 = none)) :
    ∃ what, items.foldlM collectGlobal g = .error (.thrown what) := by
  induction items generalizing g with
  | nil => simp at h
  | cons e rest ih =>
    obtain ⟨value, hvalue⟩ := Option.isSome_iff_exists.mp (hdef e (by simp))
    rw [List.foldlM_cons]
    by_cases hfind : (g.find? e.2).isSome
    · simp [collectGlobal, hvalue, hfind]
    · simp only [collectGlobal, hvalue, hfind, Bool.false_eq_true, if_false, ok_bind]
      apply ih (fun x hx => hdef x (List.mem_cons_of_mem _ hx))
      rintro ⟨hnodup, hfresh⟩
      have hnew : e.2 ∉ rest.map Prod.snd := by
        intro hmem
        obtain ⟨x, hx, he⟩ := List.mem_map.mp hmem
        have := hfresh x hx
        rw [he, OrdMap.find?_insert_self] at this
        cases this
      apply h
      refine ⟨List.nodup_cons.mpr ⟨hnew, hnodup⟩, ?_⟩
      intro x hx
      rcases List.mem_cons.mp hx with rfl | hx
      · simpa using hfind
      grind [OrdMap.find?_insert_of_ne]

def Table (modules : List ModuleView) (globals : OrdMap Str Int) : Prop :=
  ∀ name v, globals.find? name = some v ↔ ∃ j m o, modules[j]? = some m ∧
    name ∈ m.data.globals ∧ m.data.symbols.find? name = some o ∧ v = offsetOf modules j + o

section WellFormed

variable {modules : List ModuleView} (hwf : ∀ m ∈ modules, m.data.WellFormed)
  (hfit : ((concatenated modules).length : Int) < 2 ^ 63)

include hwf

theorem exports_defined : ∀ e ∈ exports (placed 0 modules),
    (e.1.data.symbols.find? e.2).isSome := by
  intro e he
  obtain ⟨hm, hname⟩ := mem_exports.mp he
  obtain ⟨m', hm', hdata⟩ := placed_data hm
  rw [← hdata] at hname ⊢
  exact (hwf m' hm').globals e.2 hname

-- Two modules export the same name exactly when the list of all exports has a repetition.
theorem duplicate_iff : ¬(modules.flatMap fun m => m.data.globals).Nodup ↔
    ∃ (i j : Nat) (a b : ModuleView) (name : Str), i < j ∧ modules[i]? = some a ∧ modules[j]? = some b ∧
      name ∈ a.data.globals ∧ name ∈ b.data.globals := by
  rw [List.nodup_flatMap, not_and_or, or_iff_right (not_not.mpr fun m hm => (hwf m hm).nodup),
    List.pairwise_iff_getElem]
  simp only [not_forall, Function.onFun, List.Disjoint]
  constructor
  · grind
  grind

theorem Table.isSome_iff {globals : OrdMap Str Int} (ht : Table modules globals) (name : Str) :
    (globals.find? name).isSome ↔ ∃ m ∈ modules, name ∈ m.data.globals := by
  rw [Option.isSome_iff_exists]
  constructor
  · rintro ⟨v, hv⟩
    obtain ⟨j, m, o, hj, hname, _⟩ := (ht name v).mp hv
    exact ⟨m, List.mem_of_getElem? hj, hname⟩
  · rintro ⟨m, hm, hname⟩
    obtain ⟨j, hj⟩ := List.mem_iff_getElem?.mp hm
    obtain ⟨o, ho⟩ := Option.isSome_iff_exists.mp ((hwf m hm).globals name hname)
    exact ⟨_, (ht name _).mpr ⟨j, m, o, hj, hname, ho, rfl⟩⟩

include hfit

theorem wrap64_symbol {m : ModuleView} (hm : m ∈ placed 0 modules) {name : Str} {o : Int}
    (ho : m.data.symbols.find? name = some o) : wrap64 (m.base + o) = m.base + o := by
  obtain ⟨m', hm', hdata⟩ := placed_data hm
  have hin := placed_inside hm
  have hsym := (hwf m' hm').symbols name o (by rw [hdata]; exact ho)
  rw [hdata] at hsym
  exact wrap64_eq_self ⟨by omega, by omega⟩

theorem collectGlobals_ok (hnodup : (modules.flatMap fun m => m.data.globals).Nodup) :
    ∃ globals, collectGlobals (placed 0 modules) = .ok globals ∧ Table modules globals := by
  rw [← exports_placed 0] at hnodup
  obtain ⟨globals, hrun, hin, hout⟩ := foldlM_collectGlobal_ok (exports_defined hwf) hnodup
    (g := OrdMap.empty) (fun _ _ => by simp)
  refine ⟨globals, hrun, ?_⟩
  have hentry : ∀ e ∈ exports (placed 0 modules), ∀ o, e.1.data.symbols.find? e.2 = some o →
      globals.find? e.2 = some (e.1.base + o) := by
    intro e he o ho
    rw [hin e he o ho, wrap64_symbol hwf hfit (mem_exports.mp he).1 ho]
  intro name v
  constructor
  · intro hfind
    have hmem : name ∈ (exports (placed 0 modules)).map Prod.snd := by
      by_contra hn
      rw [hout name hn] at hfind
      simp at hfind
    obtain ⟨e, he, rfl⟩ := List.mem_map.mp hmem
    obtain ⟨o, ho⟩ := Option.isSome_iff_exists.mp (exports_defined hwf e he)
    obtain ⟨hm, hname⟩ := mem_exports.mp he
    obtain ⟨j, hj, heq⟩ := mem_placed.mp hm
    grind
  · rintro ⟨j, m, o, hj, hname, ho, rfl⟩
    obtain ⟨hj', rfl⟩ := List.getElem?_eq_some_iff.mp hj
    have hm : { modules[j] with base := ((0 + offsetOf modules j : Nat) : Int) } ∈
        placed 0 modules := mem_placed.mpr ⟨j, hj', rfl⟩
    simpa using hentry (_, name) (mem_exports.mpr ⟨hm, hname⟩) o ho

theorem Table.denotes_iff {globals : OrdMap Str Int} (ht : Table modules globals) {i : Nat}
    (hi : i < modules.length) {m : ModuleView}
    (hm : m = { modules[i] with base := ((0 + offsetOf modules i : Nat) : Int) })
    (symbol : Str) (v : Int) :
    Denotes modules i symbol v ↔ resolveSymbol symbol m globals = .ok v := by
  have hmem : m ∈ placed 0 modules := mem_placed.mpr ⟨i, hi, hm⟩
  have hbase : m.base = offsetOf modules i := by rw [hm, Nat.zero_add]
  have hdata : m.data = modules[i].data := by rw [hm]
  have hself := List.getElem?_eq_getElem hi
  constructor
  · intro h
    cases h with
    | own hm' hv =>
      grind [resolveSymbol, wrap64_symbol]
    | imported hm' hnone hj hg hv =>
      rw [hself, Option.some.injEq] at hm'
      subst hm'
      rw [← hdata] at hnone
      simp only [resolveSymbol, hnone, (ht symbol _).mpr ⟨_, _, _, hj, hg, hv, rfl⟩]
  · intro h
    unfold resolveSymbol at h
    split at h
    · rename_i o ho
      rw [wrap64_symbol hwf hfit hmem ho, Except.ok.injEq] at h
      rw [← h, hbase]
      exact .own hself (by rw [← hdata]; exact ho)
    · rename_i hnone
      split at h
      · rename_i o ho
        cases h
        obtain ⟨j, m', o, hj, hname, hv, rfl⟩ := (ht symbol _).mp ho
        exact .imported hself (by rw [← hdata]; exact hnone) hj hname hv
      · cases h

theorem applyRelocs_ok_or_thrown (mode : Str) (globals : OrdMap Str Int) :
    (∀ site ∈ sites (placed 0 modules), Resolvable globals site) ∧
        (∃ st, applyRelocs mode globals (placed 0 modules) (concatenated modules) = .ok st) ∨
      ¬(∀ site ∈ sites (placed 0 modules), Resolvable globals site) ∧
        ∃ what, applyRelocs mode globals (placed 0 modules) (concatenated modules) =
          .error (.thrown what) := by
  have hsize : ∀ site ∈ sites (placed 0 modules), site.2.size = 2 := by
    intro site hsite
    obtain ⟨hm, hr⟩ := mem_sites.mp hsite
    obtain ⟨m', hm', hdata⟩ := placed_data hm
    exact ((hwf m' hm').fields site.2 (by rw [hdata]; exact hr)).1
  refine foldlM_ok_or_thrown (applyReloc mode globals)
    (fun st => st.linked.length = (concatenated modules).length) (Resolvable globals) ?_ ?_ rfl
  · intro st site hsite hlen hres
    obtain ⟨_, h0, hle⟩ := sitePos_placed hwf hfit hsite
    obtain ⟨linked, hlinked⟩ := update_ok (v := st.linked)
      (u := (sitePos site, fun _ => siteTarget globals site)) ⟨h0, by rw [hlen]; exact hle⟩
    exact ⟨⟨linked, _⟩, applyReloc_eq_ok.mpr ⟨⟨hsize site hsite, hres⟩, hlinked, rfl⟩,
      (update_length hlinked).trans hlen⟩
  · intro st site hsite _ hres
    simp only [applyReloc, hsize site hsite, resolveSymbol_thrown hres, ne_eq, not_true_eq_false,
      if_false, error_bind]
    exact ⟨_, rfl⟩

theorem linkImage_placed {mode : Str} (hmode : mode = absolute ∨ mode = relocatable)
    (loadAddress : Int) (entrySymbol : Option Str) :
    linkImage modules mode loadAddress entrySymbol = (do
      let globals ← collectGlobals (placed 0 modules)
      let patching ← applyRelocs mode globals (placed 0 modules) (concatenated modules)
      let entry ← imageEntry (placed 0 modules) globals entrySymbol
      .ok (makeImage mode loadAddress entry globals patching)) := by
  have hplace := @placeModules_eq modules 0 (fun m hm => (hwf m hm).size) (by simpa using hfit)
  have hcopy := copyModules_placed [] modules
  have hsize : codeSize ((0 + (concatenated modules).length : Nat) : Int) =
      .ok (concatenated modules).length := by
    simp [codeSize]
  rw [linkImage, if_neg (by rcases hmode with rfl | rfl <;> simp)]
  grind [ok_bind]

theorem linkImage_ok_or_thrown (mode : Str) (loadAddress : Int) (entrySymbol : Option Str) :
    ¬Rejected modules mode entrySymbol ∧
        (∃ image, linkImage modules mode loadAddress entrySymbol = .ok image) ∨
      Rejected modules mode entrySymbol ∧
        ∃ what, linkImage modules mode loadAddress entrySymbol = .error (.thrown what) := by
  by_cases hmode : mode ≠ absolute ∧ mode ≠ relocatable
  · refine Or.inr ⟨.mode hmode, ?_⟩
    simp [linkImage, hmode]
  have hmode' : mode = absolute ∨ mode = relocatable := by
    by_contra h
    exact hmode (not_or.mp h)
  rw [linkImage_placed hwf hfit hmode']
  by_cases hnodup : (modules.flatMap fun m => m.data.globals).Nodup
  swap
  · obtain ⟨i, j, a, b, name, hij, hi, hj, ha, hb⟩ := (duplicate_iff hwf).mp hnodup
    have hdup : ¬(((exports (placed 0 modules)).map Prod.snd).Nodup ∧
        ∀ e ∈ exports (placed 0 modules), (OrdMap.empty : OrdMap Str Int).find? e.2 = none) := by
      rw [exports_placed]
      exact fun h => hnodup h.1
    obtain ⟨what, hwhat⟩ := foldlM_collectGlobal_thrown (exports_defined hwf) hdup
    rw [collectGlobals, hwhat, error_bind]
    exact Or.inr ⟨.duplicate hij hi hj ha hb, what, rfl⟩
  obtain ⟨globals, hglobals, ht⟩ := collectGlobals_ok hwf hfit hnodup
  rw [hglobals, ok_bind]
  rcases applyRelocs_ok_or_thrown hwf hfit mode globals with ⟨hres, st, hst⟩ | ⟨hres, what, hst⟩
  swap
  · rw [hst, error_bind]
    refine Or.inr ⟨?_, what, rfl⟩
    simp only [not_forall] at hres
    obtain ⟨site, hsite, hsite'⟩ := hres
    obtain ⟨hm, hr⟩ := mem_sites.mp hsite
    obtain ⟨m', hm', hdata⟩ := placed_data hm
    rw [Resolvable, not_or, ht.isSome_iff hwf, ← hdata] at hsite'
    exact .unresolved hm' (by rw [hdata]; exact hr) (by simpa using hsite'.1)
      fun x hx hg => hsite'.2 ⟨x, hx, hg⟩
  rw [hst, ok_bind]
  -- everything but the entry symbol has been found to be in order
  have hrest : Rejected modules mode entrySymbol →
      ∃ name, entrySymbol = some name ∧ ∀ m ∈ modules, name ∉ m.data.globals := by
    intro h
    cases h with
    | mode h => exact absurd h hmode
    | duplicate hij hi hj ha hb =>
      grind [duplicate_iff]
    | @unresolved m r hm hr hown hglobal =>
      obtain ⟨i, hi, rfl⟩ := List.mem_iff_getElem.mp hm
      have hsite := hres ({ modules[i] with base := ((0 + offsetOf modules i : Nat) : Int) }, r)
        (mem_sites.mpr ⟨mem_placed.mpr ⟨i, hi, rfl⟩, hr⟩)
      rw [Resolvable, ht.isSome_iff hwf] at hsite
      grind
    | entry he hn => exact ⟨_, he, hn⟩
  cases entrySymbol with
  | none =>
    refine Or.inl ⟨?_, ?_⟩
    · grind
    · cases placed 0 modules <;> exact ⟨_, rfl⟩
  | some name =>
    by_cases hg : (globals.find? name).isSome
    · refine Or.inl ⟨?_, ?_⟩
      · intro h
        obtain ⟨name', hname, hn⟩ := hrest h
        cases hname
        obtain ⟨m, hm, hmem⟩ := (ht.isSome_iff hwf name).mp hg
        exact hn m hm hmem
      · obtain ⟨v, hv⟩ := Option.isSome_iff_exists.mp hg
        simp [imageEntry, hv]
    · refine Or.inr ⟨.entry rfl ?_, ?_⟩
      · intro m hm hmem
        exact hg ((ht.isSome_iff hwf name).mpr ⟨m, hm, hmem⟩)
      · rw [Option.not_isSome_iff_eq_none] at hg
        simp [imageEntry, hg]

theorem collectGlobals_table {globals : OrdMap Str Int}
    (h : collectGlobals (placed 0 modules) = .ok globals) : Table modules globals := by
  by_cases hnodup : (modules.flatMap fun m => m.data.globals).Nodup
  · grind [collectGlobals_ok]
  · obtain ⟨what, hwhat⟩ := foldlM_collectGlobal_thrown (g := OrdMap.empty) (exports_defined hwf)
      (by rw [exports_placed]; exact fun h => hnodup h.1)
    rw [collectGlobals, hwhat] at h
    cases h

theorem not_inField_placed {i k : Nat} (hi : i < modules.length)
    (hk : k < modules[i].data.code.length)
    (hplain : ∀ r ∈ modules[i].data.relocations, ¬InField k r.offset)
    {site : ModuleView × Reloc} (hsite : site ∈ sites (placed 0 modules)) :
    ¬InField (offsetOf modules i + k) (sitePos site) := by
  obtain ⟨hpos, _⟩ := sitePos_placed hwf hfit hsite
  obtain ⟨hm, hr⟩ := mem_sites.mp hsite
  obtain ⟨j, hj, heq⟩ := mem_placed.mp hm
  have hbase : site.1.base = offsetOf modules j := by rw [heq, Nat.zero_add]
  have hdata : site.1.data = modules[j].data := by rw [heq]
  rw [hdata] at hr
  have hfield := (hwf _ (List.getElem_mem hj)).fields site.2 hr
  rcases Nat.lt_trichotomy i j with hij | rfl | hij
  · have := offsetOf_ordered hij hj
    unfold InField
    omega
  · grind [InField]
  · have := offsetOf_ordered hij hi
    unfold InField
    omega

theorem realizes_of_linkImage {loadAddress : Int} {entrySymbol : Option Str} {image : Image}
    (h : linkImage modules relocatable loadAddress entrySymbol = .ok image) :
    Realizes modules image := by
  obtain ⟨globals, copied, entry, hl⟩ := linkImage_eq_ok.mp h
  have hplace := @placeModules_eq modules 0 (fun m hm => (hwf m hm).size) (by simpa using hfit)
  have hcopy := copyModules_placed [] modules
  simp only [List.length_nil, List.nil_append] at hcopy
  simp only [Int.natCast_zero] at hplace
  obtain ⟨size, hsize, hcopied⟩ := hl.copy
  simp only [hplace, codeSize, ite_error_eq_ok, Except.ok.injEq, Int.toNat_natCast,
    Nat.zero_add] at hsize
  rw [hplace, ← hsize.2, hcopy, Except.ok.injEq] at hcopied
  subst hcopied
  have hcode := hl.code
  have himage := hl.image_eq
  have ht := hl.collected
  have hresolvable := hl.resolvable
  simp only [hplace] at hcode himage ht hresolvable
  replace ht := collectGlobals_table hwf hfit ht
  have hapart : (siteUpdates globals (sites (placed 0 modules))).Pairwise
      fun a b => Apart a.1 b.1 := by
    rw [siteUpdates, List.pairwise_map]
    exact sites_apart hwf hfit
  refine ⟨updates_length hcode, ?_, ?_, ?_⟩
  · intro i m hm k hk hplain
    obtain ⟨hi, rfl⟩ := List.getElem?_eq_some_iff.mp hm
    rw [updates_getD hcode, concatenated_getD hi hk]
    intro u hu
    obtain ⟨site, hsite, rfl⟩ := List.mem_map.mp hu
    grind [not_inField_placed]
  · intro i m hm r hr
    obtain ⟨hi, rfl⟩ := List.getElem?_eq_some_iff.mp hm
    have hsite : ({ modules[i] with base := ((0 + offsetOf modules i : Nat) : Int) }, r) ∈
        sites (placed 0 modules) := mem_sites.mpr ⟨mem_placed.mpr ⟨i, hi, rfl⟩, hr⟩
    obtain ⟨value, hvalue⟩ := resolveSymbol_ok (hresolvable _ hsite).2
    have hfield := (hwf _ (List.getElem_mem hi)).fields r hr
    have hpos : ((0 + offsetOf modules i : Nat) + r.offset : Int).toNat =
        offsetOf modules i + r.offset.toNat := by omega
    refine ⟨value, ?_, ?_⟩
    · intro v
      rw [ht.denotes_iff hwf hfit hi rfl, hvalue, Except.ok.injEq, eq_comm]
    · have hupdate := updates_u16At hcode hapart (List.mem_map_of_mem hsite)
      simpa only [(sitePos_placed hwf hfit hsite).1, hpos, siteTarget, hvalue,
        wrap64_emod_u16] using hupdate
  · rw [himage, makeImage, if_pos rfl, sites_pos hwf hfit]

end WellFormed

-- The linker on modules that come from the assembler, all of them in one address space.
-- It throws for the four reasons above and no other. Otherwise a relocatable link realizes
-- the modules.
theorem linkModules_correct {D : Type} {modules : List ModuleView}
    (hsource : ∀ m ∈ modules, Assembler.FromSource m.data)
    (hfit : ((concatenated modules).length : Int) < 2 ^ 63) (mode : Str) (loadAddress : Int)
    (entrySymbol : Option Str) :
    (Rejected modules mode entrySymbol ↔ ∃ what,
      linkModules modules mode loadAddress entrySymbol =
        (.error (.thrown what) : Result (Value D))) ∧
    (¬Rejected modules mode entrySymbol → ∃ image,
      linkModules modules mode loadAddress entrySymbol =
        (.ok (imageJson image) : Result (Value D)) ∧
      (mode = relocatable → Realizes modules image)) := by
  have hwf : ∀ m ∈ modules, m.data.WellFormed := fun m hm => (hsource m hm).wellFormed
  unfold linkModules
  rcases linkImage_ok_or_thrown hwf hfit mode loadAddress entrySymbol with
    ⟨hgood, image, himage⟩ | ⟨hbad, what, hwhat⟩
  · rw [himage, ok_bind]
    refine ⟨⟨fun h => absurd h hgood, ?_⟩, fun _ => ⟨image, rfl, ?_⟩⟩
    · rintro ⟨what, h⟩
      cases h
    · rintro rfl
      exact realizes_of_linkImage hwf hfit himage
  · rw [hwhat, error_bind]
    exact ⟨⟨fun _ => ⟨what, rfl⟩, fun _ => hbad⟩, fun h => absurd hbad h⟩

-- A caller and a callee, each with a label of the same name.

def callerLines : List Str :=
  [lit ".GLOBAL start", lit ".EXTERN value", lit "start: LOAD R1, value", lit "loop: JMP loop"]

def calleeLines : List Str :=
  [lit ".GLOBAL value", lit "loop: NOP", lit "value: .WORD 7", lit ".SPACE 2", lit "JMP loop"]

def caller : ModuleView :=
  ⟨lit "caller.obj.json", ⟨lit "caller", 7, [17, 1, 0, 0, 48, 4, 0],
    ⟨[(lit "loop", 4), (lit "start", 0)], by decide⟩, [lit "start"], [lit "value"], 0,
    [⟨2, 2, lit "value", 0⟩, ⟨5, 2, lit "loop", 0⟩]⟩, 0⟩

def callee : ModuleView :=
  ⟨lit "callee.obj.json", ⟨lit "callee", 8, [0, 7, 0, 0, 0, 48, 0, 0],
    ⟨[(lit "loop", 0), (lit "value", 1)], by decide⟩, [lit "value"], [], 0,
    [⟨6, 2, lit "loop", 0⟩]⟩, 0⟩

theorem caller_assembled : Assembler.NonnegSpaces callerLines ∧
    Assembler.assembleObject callerLines (lit "caller") (lit "caller.asm") = .ok caller.data := by
  decide +kernel

theorem callee_assembled : Assembler.NonnegSpaces calleeLines ∧
    Assembler.assembleObject calleeLines (lit "callee") (lit "callee.asm") = .ok callee.data := by
  decide +kernel

def pairImage : Image :=
  ⟨relocatable, 15, 0, 0, [17, 1, 8, 0, 48, 4, 0, 0, 7, 0, 0, 0, 48, 7, 0], [2, 5, 13],
    [(lit "start", 0), (lit "value", 8)]⟩

theorem pairImage_linked :
    linkImage [caller, callee] relocatable 0 (some (lit "start")) = .ok pairImage := by
  decide +kernel

theorem pair_assembled : ∀ m ∈ [caller, callee], Assembler.FromSource m.data := by
  intro m hm
  simp only [List.mem_cons, List.not_mem_nil, or_false] at hm
  rcases hm with rfl | rfl
  · exact ⟨_, _, _, caller_assembled⟩
  · exact ⟨_, _, _, callee_assembled⟩

theorem linkModules_correct_pair : ∃ image,
    linkModules [caller, callee] relocatable 0 (some (lit "start")) =
      (.ok (imageJson image) : Result (Value Unit)) ∧ Realizes [caller, callee] image := by
  obtain ⟨hrejected, hrealized⟩ := linkModules_correct (D := Unit) pair_assembled (by decide)
    relocatable 0 (some (lit "start"))
  have hgood : ¬Rejected [caller, callee] relocatable (some (lit "start")) := by
    intro h
    obtain ⟨what, hwhat⟩ := hrejected.mp h
    rw [linkModules, pairImage_linked, ok_bind] at hwhat
    cases hwhat
  obtain ⟨image, himage, hrealizes⟩ := hrealized hgood
  exact ⟨image, himage, hrealizes rfl⟩

end Wirth.Toolchain.Linker

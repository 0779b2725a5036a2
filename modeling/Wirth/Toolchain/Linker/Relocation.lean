import Wirth.Lib.Patch
import Wirth.Toolchain.Linker.Link

namespace Wirth.Toolchain.Linker

open Wirth.Lib

def sitePos (site : ModuleView × Reloc) : Int := wrap64 (site.1.base + site.2.offset)

def siteTarget (globals : OrdMap Str Int) (site : ModuleView × Reloc) : Int :=
  match resolveSymbol site.2.symbol site.1 globals with
  | .ok value => wrap64 (value + site.2.addend)
  | .error _ => 0

def Resolvable (globals : OrdMap Str Int) (site : ModuleView × Reloc) : Prop :=
  (site.1.data.symbols.find? site.2.symbol).isSome ∨ (globals.find? site.2.symbol).isSome

def siteUpdates (globals : OrdMap Str Int) (items : List (ModuleView × Reloc)) : List Update :=
  items.map fun site => (sitePos site, fun _ => siteTarget globals site)

variable {symbol mode : Str} {modules : List ModuleView} {m : ModuleView} {globals : OrdMap Str Int}

theorem resolveSymbol_ok
    (h : (m.data.symbols.find? symbol).isSome ∨ (globals.find? symbol).isSome) :
    ∃ value, resolveSymbol symbol m globals = .ok value := by
  unfold resolveSymbol
  split
  · exact ⟨_, rfl⟩
  · split
    · exact ⟨_, rfl⟩
    grind

theorem resolveSymbol_thrown
    (h : ¬((m.data.symbols.find? symbol).isSome ∨ (globals.find? symbol).isSome)) :
    resolveSymbol symbol m globals =
      .error (.thrown (m.path ++ lit ": símbolo não resolvido: " ++ symbol)) := by
  rw [not_or, Option.not_isSome_iff_eq_none, Option.not_isSome_iff_eq_none] at h
  simp [resolveSymbol, h.1, h.2]

theorem Resolvable.of_ok {globals : OrdMap Str Int} {site : ModuleView × Reloc} {value : Int}
    (h : resolveSymbol site.2.symbol site.1 globals = .ok value) : Resolvable globals site := by
  by_contra hn
  rw [resolveSymbol_thrown hn] at h
  cases h

theorem applyReloc_eq_ok {mode : Str} {globals : OrdMap Str Int} {st st' : Patching}
    {site : ModuleView × Reloc} : applyReloc mode globals st site = .ok st' ↔
      (site.2.size = 2 ∧ Resolvable globals site) ∧
      update st.linked (sitePos site, fun _ => siteTarget globals site) = .ok st'.linked ∧
      st'.pending = if mode = relocatable then st.pending ++ [sitePos site] else st.pending := by
  simp only [applyReloc, ite_error_eq_ok, bind_eq_ok, not_not, Except.ok.injEq]
  constructor
  · rintro ⟨hsize, value, hvalue, linked, hlinked, rfl⟩
    refine ⟨⟨hsize, .of_ok hvalue⟩, ?_, rfl⟩
    grind [storeU16_eq_update, sitePos, siteTarget]
  · rintro ⟨⟨hsize, hres⟩, hupdate, hpending⟩
    obtain ⟨value, hvalue⟩ := resolveSymbol_ok hres
    refine ⟨hsize, value, hvalue, st'.linked, ?_, ?_⟩
    · grind [storeU16_eq_update, sitePos, siteTarget]
    · cases st'
      subst hpending
      rfl

theorem foldlM_applyReloc_eq_ok
    {items : List (ModuleView × Reloc)} {st st' : Patching} :
    items.foldlM (applyReloc mode globals) st = .ok st' ↔
      (∀ site ∈ items, site.2.size = 2 ∧ Resolvable globals site) ∧
      updates st.linked (siteUpdates globals items) = .ok st'.linked ∧
      st'.pending = st.pending ++ if mode = relocatable then items.map sitePos else [] := by
  induction items generalizing st with
  | nil =>
    constructor
    · intro h
      cases h
      exact ⟨by simp, rfl, by simp⟩
    · rintro ⟨_, hlinked, hpending⟩
      cases st
      cases st'
      cases hlinked
      simp only [List.map_nil, ite_self, List.append_nil] at hpending
      rw [hpending]
      rfl
  | cons site rest ih =>
    rw [List.foldlM_cons, bind_eq_ok]
    simp only [siteUpdates, List.map_cons, updates_cons_eq_ok, List.forall_mem_cons]
    constructor
    · rintro ⟨mid, hmid, hrest⟩
      obtain ⟨hsite, hupdate, hpending⟩ := applyReloc_eq_ok.mp hmid
      obtain ⟨hsites, hupdates, hpending'⟩ := ih.mp hrest
      refine ⟨⟨hsite, hsites⟩, ⟨mid.linked, hupdate, hupdates⟩, ?_⟩
      rw [hpending', hpending]
      split_ifs <;> simp
    · rintro ⟨⟨hsite, hsites⟩, ⟨linked, hupdate, hupdates⟩, hpending⟩
      refine ⟨⟨linked, if mode = relocatable then st.pending ++ [sitePos site] else st.pending⟩,
        applyReloc_eq_ok.mpr ⟨hsite, hupdate, rfl⟩, ih.mpr ⟨hsites, hupdates, ?_⟩⟩
      rw [hpending]
      split_ifs <;> simp

theorem applyRelocs_eq_ok {modules : List ModuleView}
    {linked : List UInt8} {st : Patching} :
    applyRelocs mode globals modules linked = .ok st ↔
      (∀ site ∈ sites modules, site.2.size = 2 ∧ Resolvable globals site) ∧
      updates linked (siteUpdates globals (sites modules)) = .ok st.linked ∧
      st.pending = if mode = relocatable then (sites modules).map sitePos else [] := by
  rw [applyRelocs, foldlM_applyReloc_eq_ok, List.nil_append]

theorem makeImage_pending (mode : Str) (loadAddress entry : Int) (globals : OrdMap Str Int)
    (code : List UInt8) (pending : List Int) :
    makeImage mode loadAddress entry globals ⟨code, if mode = relocatable then pending else []⟩ =
      makeImage mode loadAddress entry globals ⟨code, pending⟩ := by
  grind [makeImage]

-- A successful link: the tables it built and the image it made of them.
structure Linked (modules : List ModuleView) (mode : Str) (loadAddress : Int)
    (entrySymbol : Option Str) (globals : OrdMap Str Int) (copied : List UInt8) (entry : Int)
    (image : Image) : Prop where
  valid : mode = absolute ∨ mode = relocatable
  collected : collectGlobals (placeModules 0 modules).1 = .ok globals
  copy : ∃ size, codeSize (placeModules 0 modules).2 = .ok size ∧
    copyModules (placeModules 0 modules).1 (List.replicate size 0) = .ok copied
  resolvable : ∀ site ∈ sites (placeModules 0 modules).1,
    site.2.size = 2 ∧ Resolvable globals site
  code : updates copied (siteUpdates globals (sites (placeModules 0 modules).1)) = .ok image.code
  start : imageEntry (placeModules 0 modules).1 globals entrySymbol = .ok entry
  image_eq : image = makeImage mode loadAddress entry globals
    ⟨image.code, (sites (placeModules 0 modules).1).map sitePos⟩

theorem linkImage_eq_ok {mode : Str} {loadAddress : Int}
    {entrySymbol : Option Str} {image : Image} :
    linkImage modules mode loadAddress entrySymbol = .ok image ↔
      ∃ globals copied entry,
        Linked modules mode loadAddress entrySymbol globals copied entry image := by
  simp only [linkImage, ite_error_eq_ok, bind_eq_ok, applyRelocs_eq_ok, Except.ok.injEq]
  constructor
  · rintro ⟨hmode, globals, hglobals, size, hsize, copied, hcopied, patching,
      ⟨hres, hcode, hpending⟩, entry, hentry, rfl⟩
    refine ⟨globals, copied, entry, by tauto, hglobals, ⟨size, hsize, hcopied⟩, hres, hcode,
      hentry, ?_⟩
    rw [show patching = ⟨patching.linked, patching.pending⟩ from rfl, hpending, makeImage_pending]
    rfl
  · rintro ⟨globals, copied, entry, h⟩
    obtain ⟨size, hsize, hcopied⟩ := h.copy
    refine ⟨?_, globals, h.collected, size, hsize, copied, hcopied, ⟨image.code, _⟩,
      ⟨h.resolvable, h.code, rfl⟩, entry, h.start, ?_⟩
    · rcases h.valid with rfl | rfl <;> simp
    · exact (makeImage_pending ..).trans h.image_eq.symm

def patchPositions (modules : List ModuleView) : List Int :=
  (sites (placeModules 0 modules).1).map sitePos

theorem patchPositions_eq_nil :
    patchPositions modules = [] ↔ ∀ m ∈ modules, m.data.relocations = [] := by
  have hplace : ∀ (ms : List ModuleView) (c : Int),
      (∀ m ∈ (placeModules c ms).1, m.data.relocations = []) ↔
        ∀ m ∈ ms, m.data.relocations = [] := by
    intro ms
    induction ms with
    | nil => simp [placeModules]
    | cons m rest ih =>
      simp [placeModules, ih]
  rw [patchPositions, List.map_eq_nil_iff, sites, List.flatMap_eq_nil_iff, ← hplace modules 0]
  simp

-- Both modes patch the code in the same way; they differ in what they record about it.
theorem Linked.relocatable_of_absolute {L : Int}
    {entrySymbol : Option Str} {globals : OrdMap Str Int} {copied : List UInt8} {entry : Int}
    {abs : Image} (h : Linked modules absolute L entrySymbol globals copied entry abs) (L' : Int) :
    Linked modules relocatable L' entrySymbol globals copied entry
      (makeImage relocatable 0 entry globals ⟨abs.code, patchPositions modules⟩) :=
  ⟨Or.inr rfl, h.collected, h.copy, h.resolvable, h.code, h.start, rfl⟩

end Wirth.Toolchain.Linker

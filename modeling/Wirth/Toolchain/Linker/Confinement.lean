import Mathlib.Algebra.Order.BigOperators.Group.List
import Wirth.Toolchain.Linker.Placed

namespace Wirth.Toolchain.Linker

open Wirth.Lib Wirth.Toolchain.Json

-- The bytes of the image that are given to a module, and those that linking it writes.

def Region (m : ModuleView) (x : Int) : Prop := m.base ≤ x ∧ x < m.base + m.data.size

def Written (m : ModuleView) (x : Int) : Prop :=
  (m.base ≤ x ∧ x < m.base + m.data.code.length) ∨
    ∃ r ∈ m.data.relocations, sitePos (m, r) ≤ x ∧ x < sitePos (m, r) + 2

-- No module is written to by another.

def Separate (a b : ModuleView) : Prop :=
  (∀ x, Written a x → ¬Region b x) ∧ ∀ x, Written b x → ¬Region a x

instance separate_symm : Std.Symm Separate := ⟨fun _ _ h => And.symm h⟩

def KeptApart (modules : List ModuleView) : Prop := modules.Pairwise Separate

-- Every copy and every patch lies in an image of the given size.
def FitsIn (size : Int) (m : ModuleView) : Prop :=
  (0 ≤ m.base ∧ m.base + m.data.code.length ≤ size) ∧
    ∀ r ∈ m.data.relocations, 0 ≤ sitePos (m, r) ∧ sitePos (m, r) + 2 ≤ size

def PlacedSafely (modules : List ModuleView) : Prop :=
  (∀ m ∈ (placeModules 0 modules).1, FitsIn (placeModules 0 modules).2 m) ∧
    KeptApart (placeModules 0 modules).1

-- The linker refuses its input, or makes all its writes in the image and in the region of the
-- module it makes them for.
def Confined (D : Type) (modules : List ModuleView) (mode : Str) (loadAddress : Int)
    (entrySymbol : Option Str) : Prop :=
  Safely (linkModules modules mode loadAddress entrySymbol : Result (Value D)) fun _ =>
    KeptApart (placeModules 0 modules).1

def Covers (o : ObjectFile) : Prop :=
  o.code.length ≤ o.size ∧ ∀ r ∈ o.relocations, 0 ≤ r.offset ∧ r.offset + 2 ≤ o.size

def Sized (modules : List ModuleView) : Prop :=
  (∀ m ∈ modules, 0 ≤ m.data.size) ∧ (modules.map fun m => m.data.size).sum < 2 ^ 63

section Run

variable {modules : List ModuleView} {size : Nat}

theorem copyModules_safely (h : ∀ m ∈ modules, FitsIn size m) {linked : List UInt8}
    (hlen : linked.length = size) :
    Safely (copyModules modules linked) fun copied => copied.length = size := by
  refine safely_foldlM ?_ hlen
  intro linked m hm hlinked
  obtain ⟨⟨hbase, hstop⟩, -⟩ := h m hm
  constructor
  · rw [copyTo_faults, not_not, hlinked]
    exact ⟨hbase, hstop⟩
  grind [copyTo_length]

theorem resolveSymbol_not_faults (symbol : Str) (m : ModuleView) (globals : OrdMap Str Int) :
    ¬Faults (resolveSymbol symbol m globals) := by
  grind [resolveSymbol, not_faults_ok, not_faults_thrown]

theorem applyReloc_safely (mode : Str) (globals : OrdMap Str Int) {st : Patching}
    {site : ModuleView × Reloc} (hlen : st.linked.length = size)
    (hsite : 0 ≤ sitePos site ∧ sitePos site + 2 ≤ size) :
    Safely (applyReloc mode globals st site) fun st' => st'.linked.length = size := by
  constructor
  · rw [applyReloc]
    split
    · exact not_faults_thrown _
    rw [faults_bind]
    rintro (h | ⟨value, -, h⟩)
    · exact resolveSymbol_not_faults _ _ _ h
    rw [faults_bind, storeU16_faults, hlen] at h
    rcases h with h | ⟨linked, -, h⟩
    · unfold sitePos at hsite
      omega
    · exact not_faults_ok _ h
  · intro st' hst'
    rw [update_length (applyReloc_eq_ok.mp hst').2.1, hlen]

theorem applyRelocs_safely (mode : Str) (globals : OrdMap Str Int)
    (h : ∀ m ∈ modules, FitsIn size m) {linked : List UInt8} (hlen : linked.length = size) :
    Safely (applyRelocs mode globals modules linked) fun st => st.linked.length = size := by
  refine safely_foldlM ?_ hlen
  intro st site hsite hst
  obtain ⟨hm, hr⟩ := mem_sites.mp hsite
  exact applyReloc_safely mode globals hst ((h site.1 hm).2 site.2 hr)

-- The two tables are built without any write to the image.

theorem collectGlobals_not_faults (modules : List ModuleView) : ¬Faults (collectGlobals modules) := by
  have hsafe : Safely (collectGlobals modules) fun _ => True := by
    refine safely_foldlM ?_ trivial
    intro globals item _ _
    refine ⟨?_, fun _ _ => trivial⟩
    unfold collectGlobal
    split
    · exact not_faults_thrown _
    split
    · exact not_faults_thrown _
    · exact not_faults_ok _
  exact hsafe.1

theorem imageEntry_not_faults (modules : List ModuleView) (globals : OrdMap Str Int)
    (entrySymbol : Option Str) : ¬Faults (imageEntry modules globals entrySymbol) := by
  unfold imageEntry
  grind [not_faults_thrown, not_faults_ok]

theorem codeSize_safely (size : Int) : Safely (codeSize size) fun n => (n : Int) = size := by
  grind [codeSize, safely_thrown, safely_ok]

variable {mode : Str} {loadAddress : Int} {entrySymbol : Option Str}

theorem linkImage_not_faults
    (h : ∀ m ∈ (placeModules 0 modules).1, FitsIn (placeModules 0 modules).2 m) :
    ¬Faults (linkImage modules mode loadAddress entrySymbol) := by
  have hsafe : Safely (linkImage modules mode loadAddress entrySymbol) fun _ => True := by
    unfold linkImage
    split
    · exact safely_thrown _
    refine Safely.bind (Q := fun _ => True) ⟨collectGlobals_not_faults _, fun _ _ => trivial⟩ ?_
    intro globals _
    refine (codeSize_safely _).bind fun size hsize => ?_
    rw [← hsize] at h
    refine (copyModules_safely h (List.length_replicate)).bind fun copied hcopied => ?_
    refine (applyRelocs_safely mode globals h hcopied).bind fun patching _ => ?_
    refine Safely.bind (Q := fun _ => True) ⟨imageEntry_not_faults _ _ _, fun _ _ => trivial⟩ ?_
    exact fun entry _ => safely_ok trivial
  exact hsafe.1

theorem copyModules_range {linked copied : List UInt8} (h : copyModules modules linked = .ok copied) :
    copied.length = linked.length ∧
      ∀ m ∈ modules, 0 ≤ m.base ∧ m.base + m.data.code.length ≤ linked.length := by
  induction modules generalizing linked with
  | nil =>
    cases h
    exact ⟨rfl, by simp⟩
  | cons m rest ih =>
    rw [copyModules, List.foldlM_cons, bind_eq_ok] at h
    obtain ⟨mid, hmid, hrest⟩ := h
    obtain ⟨hlen, hrange⟩ := ih hrest
    rw [copyTo_length hmid] at hlen hrange
    exact ⟨hlen, List.forall_mem_cons.mpr ⟨(copyTo_eq_ok.mp hmid).1, hrange⟩⟩

theorem linkImage_writes {image : Image} (h : linkImage modules mode loadAddress entrySymbol = .ok image) :
    ∀ m ∈ (placeModules 0 modules).1, FitsIn (placeModules 0 modules).2 m := by
  obtain ⟨globals, copied, entry, hlinked⟩ := linkImage_eq_ok.mp h
  obtain ⟨size, hsize, hcopied⟩ := hlinked.copy
  obtain ⟨hlen, hrange⟩ := copyModules_range hcopied
  rw [List.length_replicate] at hlen hrange
  have hstop := (codeSize_safely _).2 size hsize
  intro m hm
  rw [← hstop]
  refine ⟨hrange m hm, ?_⟩
  intro r hr
  have hupdate : (sitePos (m, r), fun _ : Int => siteTarget globals (m, r)) ∈
      siteUpdates globals (sites (placeModules 0 modules).1) :=
    List.mem_map.mpr ⟨(m, r), mem_sites.mpr ⟨hm, hr⟩, rfl⟩
  have hpos := updates_range hlinked.code hupdate
  rw [hlen] at hpos
  exact hpos

end Run

-- With sizes that can be added up, the regions follow each other and fill the image.

structure Tiled (start stop : Int) (modules : List ModuleView) : Prop where
  inside : ∀ m ∈ modules, start ≤ m.base ∧ m.base + m.data.size ≤ stop
  ordered : modules.Pairwise fun a b => a.base + a.data.size ≤ b.base
  covered : ∀ x, start ≤ x → x < stop → ∃ m ∈ modules, Region m x

theorem Tiled.cons {start stop : Int} {m : ModuleView} {rest : List ModuleView}
    (h : Tiled (start + m.data.size) stop rest) (hsize : 0 ≤ m.data.size)
    (hle : start + m.data.size ≤ stop) : Tiled start stop ({ m with base := start } :: rest) where
  inside := by
    rw [List.forall_mem_cons]
    refine ⟨⟨le_refl _, hle⟩, ?_⟩
    intro m' hm'
    obtain ⟨hlo, hhi⟩ := h.inside m' hm'
    exact ⟨by omega, hhi⟩
  ordered := by
    rw [List.pairwise_cons]
    exact ⟨fun m' hm' => (h.inside m' hm').1, h.ordered⟩
  covered := by
    intro x hx hstop
    by_cases hfirst : x < start + m.data.size
    · exact ⟨{ m with base := start }, by simp, hx, hfirst⟩
    · obtain ⟨m', hm', hregion⟩ := h.covered x (by omega) hstop
      grind

theorem placeModules_tiled {cursor : Int} {modules : List ModuleView} (hcursor : 0 ≤ cursor)
    (hnonneg : ∀ m ∈ modules, 0 ≤ m.data.size)
    (hfit : cursor + (modules.map fun m => m.data.size).sum < 2 ^ 63) :
    cursor ≤ (placeModules cursor modules).2 ∧ (placeModules cursor modules).2 < 2 ^ 63 ∧
      Tiled cursor (placeModules cursor modules).2 (placeModules cursor modules).1 := by
  induction modules generalizing cursor with
  | nil =>
    simp only [placeModules]
    refine ⟨le_refl _, by simpa using hfit, by simp, by simp, ?_⟩
    omega
  | cons m rest ih =>
    rw [List.map_cons, List.sum_cons] at hfit
    obtain ⟨hsize, hrest⟩ := List.forall_mem_cons.mp hnonneg
    have hsum : 0 ≤ (rest.map fun m => m.data.size).sum := List.sum_nonneg (by simpa using hrest)
    have hnext : wrap64 (cursor + m.data.size) = cursor + m.data.size :=
      wrap64_eq_self ⟨by omega, by omega⟩
    obtain ⟨hle, hlt, htiled⟩ := ih (show 0 ≤ cursor + m.data.size by omega) hrest (by omega)
    simp only [placeModules, hnext]
    exact ⟨by omega, hlt, htiled.cons hsize hle⟩

theorem placeModules_data (cursor : Int) (modules : List ModuleView) :
    (placeModules cursor modules).1.map (fun m => m.data) = modules.map fun m => m.data := by
  induction modules generalizing cursor with
  | nil => rfl
  | cons m rest ih =>
    simp only [placeModules, List.map_cons, ih]

-- In a tiled image the writes are safe exactly when each module is written in its own region.
theorem Tiled.safe_iff {stop : Int} {modules : List ModuleView} (h : Tiled 0 stop modules)
    (hsizes : ∀ m ∈ modules, 0 ≤ m.data.size) :
    (∀ m ∈ modules, FitsIn stop m) ∧ KeptApart modules ↔
      ∀ m ∈ modules, ∀ x, Written m x → Region m x := by
  constructor
  · rintro ⟨hfits, hapart⟩ m hm x hx
    have hrange : 0 ≤ x ∧ x < stop := by
      obtain ⟨⟨hbase, hcode⟩, hfields⟩ := hfits m hm
      rcases hx with ⟨hlo, hhi⟩ | ⟨r, hr, hlo, hhi⟩
      · omega
      · have := hfields r hr
        omega
    obtain ⟨other, hother, hregion⟩ := h.covered x hrange.1 hrange.2
    by_contra hout
    have hne : m ≠ other := by
      rintro rfl
      exact hout hregion
    exact (hapart.forall hm hother hne).1 x hx hregion
  · intro hown
    constructor
    · intro m hm
      obtain ⟨hlo, hhi⟩ := h.inside m hm
      have hsize := hsizes m hm
      refine ⟨⟨hlo, ?_⟩, ?_⟩
      · by_contra hgt
        have hlast := hown m hm (m.base + m.data.code.length - 1) (Or.inl ⟨by omega, by omega⟩)
        unfold Region at hlast
        omega
      · intro r hr
        have hfirst := hown m hm (sitePos (m, r)) (Or.inr ⟨r, hr, by omega, by omega⟩)
        have hlast := hown m hm (sitePos (m, r) + 1) (Or.inr ⟨r, hr, by omega, by omega⟩)
        unfold Region at hfirst hlast
        omega
    · refine h.ordered.imp_of_mem ?_
      intro a b ha hb hab
      constructor
      · grind [Region]
      grind [Region]

-- A field that is read from an object file is a 64-bit number.

theorem asInt_inRange {D : Type} [Floating D] {v : Value D} {x : Int} (h : v.asInt = .ok x) :
    InRange64 x := by
  cases v with
  | int v =>
    cases h
    exact ⟨v.le_toInt, v.toInt_lt⟩
  | double d =>
    cases h
    exact ⟨Int64.le_toInt _, Int64.toInt_lt _⟩
  | _ => cases h

theorem parseReloc_inRange {D : Type} [Floating D] {item : Value D} {r : Reloc}
    (h : parseReloc item = .ok r) : InRange64 r.offset := by
  simp only [parseReloc, bind_eq_ok] at h
  obtain ⟨ro, -, field, -, offset, hoffset, -, -, size, -, -, -, symbol, -, h⟩ := h
  have heq : r.offset = offset := by
    split at h
    · obtain ⟨addend, -, h⟩ := bind_eq_ok.mp h
      cases h
      rfl
    · cases h
      rfl
  rw [heq]
  exact asInt_inRange hoffset

theorem parseObject_inRange {D : Type} [Floating D] {root : Value D} {o : ObjectFile}
    (h : parseObject root = .ok o) : ∀ r ∈ o.relocations, InRange64 r.offset := by
  cases root with
  | obj obj =>
    simp only [parseObject, ite_error_eq_ok, bind_eq_ok, Except.ok.injEq] at h
    obtain ⟨-, -, -, -, -, -, -, -, -, -, -, -, -, -, -, -, -, -, -, -, -, -, -, -, -, -, -, -, -, -,
      -, relocations, hrelocations, rfl⟩ := h
    intro r hr
    unfold optional at hrelocations
    split at hrelocations
    · obtain ⟨items, -, hitems⟩ := bind_eq_ok.mp hrelocations
      obtain ⟨item, -, hitem⟩ := mem_of_mapM_eq_ok hitems r hr
      exact parseReloc_inRange hitem
    · cases hrelocations
      cases hr
  | _ => cases h

-- Being written in one's own region, in terms of the object file.
theorem written_region_iff {m : ModuleView} {stop : Int} (hbase : 0 ≤ m.base)
    (hstop : m.base + m.data.size ≤ stop) (hlt : stop < 2 ^ 63) (hsize : 0 ≤ m.data.size)
    (hoffsets : ∀ r ∈ m.data.relocations, InRange64 r.offset) :
    (∀ x, Written m x → Region m x) ↔ Covers m.data := by
  constructor
  · intro h
    constructor
    · by_contra hgt
      have hend := h (m.base + m.data.size) (Or.inl ⟨by omega, by omega⟩)
      unfold Region at hend
      omega
    · intro r hr
      have hfirst := h (sitePos (m, r)) (Or.inr ⟨r, hr, by omega, by omega⟩)
      have hlast := h (sitePos (m, r) + 1) (Or.inr ⟨r, hr, by omega, by omega⟩)
      obtain ⟨hlo, hhi⟩ := hoffsets r hr
      -- A sum that does not fit would come out negative.
      have hpos : sitePos (m, r) = m.base + r.offset := by
        have hmod : sitePos (m, r) % 2 ^ 64 = (m.base + r.offset) % 2 ^ 64 :=
          wrap64_emod _ (dvd_refl _)
        unfold Region at hfirst
        omega
      unfold Region at hfirst hlast
      omega
  · rintro ⟨hcode, hfields⟩ x (⟨hlo, hhi⟩ | ⟨r, hr, hlo, hhi⟩)
    · exact ⟨hlo, by omega⟩
    · obtain ⟨hr0, hr2⟩ := hfields r hr
      have hin : InRange64 (m.base + r.offset) := ⟨by omega, by omega⟩
      have hpos : sitePos (m, r) = m.base + r.offset := wrap64_eq_self hin
      exact ⟨by omega, by omega⟩

section Confinement

variable {D : Type} {modules : List ModuleView} {mode : Str} {loadAddress : Int}
  {entrySymbol : Option Str}

theorem confined_iff : Confined D modules mode loadAddress entrySymbol ↔
    (∃ what, (linkModules modules mode loadAddress entrySymbol : Result (Value D)) =
      .error (.thrown what)) ∨ PlacedSafely modules := by
  have hlink : (linkModules modules mode loadAddress entrySymbol : Result (Value D)) =
      linkImage modules mode loadAddress entrySymbol >>= fun image => .ok (imageJson image) := rfl
  rw [Confined, hlink]
  rcases hrun : linkImage modules mode loadAddress entrySymbol with (what | _) | image
  · simp [safely_thrown]
  · constructor
    · intro h
      exact absurd rfl h.1
    · rintro (⟨what, hthrown⟩ | hsafe)
      · cases hthrown
      · exact absurd hrun (linkImage_not_faults hsafe.1)
  · constructor
    · intro h
      exact Or.inr ⟨linkImage_writes hrun, h.2 _ rfl⟩
    · rintro (⟨what, hthrown⟩ | hsafe)
      · cases hthrown
      · exact safely_ok hsafe.2

theorem placedSafely_iff (hread : ∀ m ∈ modules, ∀ r ∈ m.data.relocations, InRange64 r.offset)
    (hsized : Sized modules) : PlacedSafely modules ↔ ∀ m ∈ modules, Covers m.data := by
  obtain ⟨-, hlt, htiled⟩ := placeModules_tiled (le_refl 0) hsized.1 (by simpa using hsized.2)
  have hdata := placeModules_data 0 modules
  have hback : ∀ p : ObjectFile → Prop,
      (∀ m ∈ (placeModules 0 modules).1, p m.data) ↔ ∀ m ∈ modules, p m.data := by
    intro p
    have := congrArg (fun l => ∀ o ∈ l, p o) hdata
    simpa using this
  have hsizes := (hback fun o => 0 ≤ o.size).mpr hsized.1
  have hoffsets := (hback fun o => ∀ r ∈ o.relocations, InRange64 r.offset).mpr hread
  rw [PlacedSafely, htiled.safe_iff hsizes, ← hback Covers]
  refine forall₂_congr fun m hm => ?_
  obtain ⟨hbase, hstop⟩ := htiled.inside m hm
  exact written_region_iff hbase hstop hlt (hsizes m hm) (hoffsets m hm)

end Confinement

-- A file whose code is longer than its size does not fit in the image. A file that asks for a field
-- past its own end to be relocated overwrites the module that comes after it.

def shortObject : ObjectFile := ⟨lit "short", 1, [0x11, 0x22], OrdMap.empty, [], [], 0, []⟩

def strayObject : ObjectFile :=
  ⟨lit "stray", 2, [0x11, 0x22], OrdMap.empty.insert (lit "START") 0, [], [], 0,
    [⟨2, 2, lit "START", 0⟩]⟩

def plainObject : ObjectFile := ⟨lit "plain", 2, [0x33, 0x44], OrdMap.empty, [], [], 0, []⟩

def strayModules : List ModuleView :=
  [⟨lit "stray.obj", strayObject, 0⟩, ⟨lit "plain.obj", plainObject, 0⟩]

end Wirth.Toolchain.Linker

import Wirth.Toolchain.Linker.Relocation

namespace Wirth.Toolchain.Linker

open Wirth.Lib

-- The codes one after another, and the place of each in the whole.

def concatenated (modules : List ModuleView) : List UInt8 := modules.flatMap fun m => m.data.code

def offsetOf (modules : List ModuleView) (i : Nat) : Nat := (concatenated (modules.take i)).length

def placed (start : Nat) (modules : List ModuleView) : List ModuleView :=
  modules.mapIdx fun i m => { m with base := ((start + offsetOf modules i : Nat) : Int) }

theorem concatenated_cons_length (m : ModuleView) (rest : List ModuleView) :
    (concatenated (m :: rest)).length = m.data.code.length + (concatenated rest).length := by
  simp [concatenated]

@[simp] theorem offsetOf_zero (modules : List ModuleView) : offsetOf modules 0 = 0 := by
  simp [offsetOf, concatenated]

theorem offsetOf_cons_succ (m : ModuleView) (rest : List ModuleView) (i : Nat) :
    offsetOf (m :: rest) (i + 1) = m.data.code.length + offsetOf rest i := by
  simp [offsetOf, concatenated]

@[simp] theorem placed_nil (start : Nat) : placed start [] = [] := rfl

theorem placed_cons (start : Nat) (m : ModuleView) (rest : List ModuleView) :
    placed start (m :: rest) =
      { m with base := (start : Int) } :: placed (start + m.data.code.length) rest := by
  simp only [placed, List.mapIdx_cons, offsetOf_zero, Nat.add_zero, offsetOf_cons_succ,
    Nat.add_assoc]

theorem mem_placed {start : Nat} {modules : List ModuleView} {m : ModuleView} :
    m ∈ placed start modules ↔ ∃ i, ∃ hi : i < modules.length,
      m = { modules[i] with base := ((start + offsetOf modules i : Nat) : Int) } := by
  grind [placed]

theorem placed_data {start : Nat} {modules : List ModuleView} {m : ModuleView}
    (h : m ∈ placed start modules) : ∃ m' ∈ modules, m'.data = m.data := by
  obtain ⟨i, hi, rfl⟩ := mem_placed.mp h
  exact ⟨modules[i], List.getElem_mem hi, rfl⟩

theorem concatenated_getD {modules : List ModuleView} {i k : Nat} (hi : i < modules.length)
    (hk : k < modules[i].data.code.length) :
    (concatenated modules).getD (offsetOf modules i + k) 0 = modules[i].data.code.getD k 0 := by
  induction modules generalizing i with
  | nil => simp at hi
  | cons m rest ih =>
    simp only [concatenated, List.flatMap_cons, List.getD_eq_getElem?_getD]
    cases i with
    | zero =>
      simp only [List.getElem_cons_zero] at hk
      simp [List.getElem?_append_left hk]
    | succ i =>
      have hlt : i < rest.length := by simpa using hi
      have hrest := ih hlt (by simpa using hk)
      rw [offsetOf_cons_succ, Nat.add_assoc, List.getElem?_append_right (by omega),
        Nat.add_sub_cancel_left]
      simpa [concatenated] using hrest

-- Modules lie in the image in order and without overlap.

theorem placed_inside {start : Nat} {modules : List ModuleView} {m : ModuleView}
    (h : m ∈ placed start modules) : (start : Int) ≤ m.base ∧
      m.base + m.data.code.length ≤ ((start + (concatenated modules).length : Nat) : Int) := by
  induction modules generalizing start with
  | nil => simp at h
  | cons first rest ih =>
    grind [placed_cons, concatenated_cons_length]

theorem placed_ordered (start : Nat) (modules : List ModuleView) :
    (placed start modules).Pairwise fun a b => a.base + (a.data.code.length : Int) ≤ b.base := by
  induction modules generalizing start with
  | nil => simp
  | cons first rest ih =>
    rw [placed_cons, List.pairwise_cons]
    refine ⟨?_, ih _⟩
    intro m hm
    have := (placed_inside hm).1
    exact this

theorem offsetOf_ordered {modules : List ModuleView} {i j : Nat} (hij : i < j)
    (hj : j < modules.length) :
    offsetOf modules i + (modules[i]).data.code.length ≤ offsetOf modules j := by
  have hlen : (placed 0 modules).length = modules.length := by simp [placed]
  have := List.pairwise_iff_getElem.mp (placed_ordered 0 modules) i j (by omega) (by omega) hij
  grind [placed]

theorem offsetOf_add_le {modules : List ModuleView} {i : Nat} {m : ModuleView}
    (hm : modules[i]? = some m) :
    offsetOf modules i + m.data.code.length ≤ (concatenated modules).length := by
  obtain ⟨hi, rfl⟩ := List.getElem?_eq_some_iff.mp hm
  have hplaced : { modules[i] with base := ((0 + offsetOf modules i : Nat) : Int) } ∈
      placed 0 modules := mem_placed.mpr ⟨i, hi, rfl⟩
  have := (placed_inside hplaced).2
  push_cast at this
  omega

theorem placeModules_eq {modules : List ModuleView} {start : Nat}
    (hsize : ∀ m ∈ modules, m.data.size = m.data.code.length)
    (hfit : ((start + (concatenated modules).length : Nat) : Int) < 2 ^ 63) :
    placeModules start modules =
      (placed start modules, ((start + (concatenated modules).length : Nat) : Int)) := by
  induction modules generalizing start with
  | nil => simp [placeModules, concatenated]
  | cons m rest ih =>
    rw [concatenated_cons_length] at hfit ⊢
    have hnext : wrap64 (start + m.data.size) = ((start + m.data.code.length : Nat) : Int) := by
      rw [hsize m (by simp), wrap64_eq_self ⟨by omega, by omega⟩]
      rfl
    grind [placeModules, placed_cons]

theorem copyModules_placed (front : List UInt8) (modules : List ModuleView) :
    copyModules (placed front.length modules)
      (front ++ List.replicate (concatenated modules).length 0) =
      .ok (front ++ concatenated modules) := by
  induction modules generalizing front with
  | nil =>
    rfl
  | cons m rest ih =>
    have hcopy : copyTo (front ++ List.replicate (concatenated (m :: rest)).length 0)
        front.length m.data.code =
        .ok ((front ++ m.data.code) ++ List.replicate (concatenated rest).length 0) := by
      rw [copyTo_eq_ok, concatenated_cons_length]
      refine ⟨by simp, ?_⟩
      simp [splice, List.drop_append]
    have hrest := ih (front ++ m.data.code)
    rw [List.length_append] at hrest
    rw [placed_cons, copyModules, List.foldlM_cons]
    simp only [hcopy, ok_bind]
    rw [copyModules] at hrest
    rw [hrest]
    simp [concatenated]

-- A link that succeeds has found room for all modules, so no address has wrapped around.

theorem placeModules_cursor (cursor : Int) (h : InRange64 cursor) (modules : List ModuleView) :
    InRange64 (placeModules cursor modules).2 := by
  induction modules generalizing cursor with
  | nil => exact h
  | cons m rest ih => exact ih _ (wrap64_inRange _)

theorem copyModules_fits {modules : List ModuleView} {cursor : Int} {linked linked' : List UInt8}
    (hsize : ∀ m ∈ modules, m.data.size = m.data.code.length)
    (hlen : (linked.length : Int) < 2 ^ 63) (hcursor : 0 ≤ cursor ∧ cursor ≤ linked.length)
    (h : copyModules (placeModules cursor modules).1 linked = .ok linked') :
    cursor + (concatenated modules).length ≤ linked.length := by
  induction modules generalizing cursor linked with
  | nil => simpa [concatenated] using hcursor.2
  | cons m rest ih =>
    simp only [placeModules, copyModules, List.foldlM_cons, bind_eq_ok] at h
    obtain ⟨mid, hmid, hrest⟩ := h
    have hroom := (copyTo_eq_ok.mp hmid).1
    have hmidlen := copyTo_length hmid
    rw [hsize m (by simp), wrap64_eq_self ⟨by omega, by omega⟩] at hrest
    have := ih (fun x hx => hsize x (List.mem_cons_of_mem _ hx)) (by omega) (by omega) hrest
    grind [concatenated_cons_length]

theorem linkImage_fits {modules : List ModuleView} {mode : Str} {loadAddress : Int}
    {entrySymbol : Option Str} {image : Image}
    (hsize : ∀ m ∈ modules, m.data.size = m.data.code.length)
    (h : linkImage modules mode loadAddress entrySymbol = .ok image) :
    ((concatenated modules).length : Int) < 2 ^ 63 := by
  obtain ⟨globals, copied, entry, hl⟩ := linkImage_eq_ok.mp h
  obtain ⟨size, hcode, hcopied⟩ := hl.copy
  have hcursor := placeModules_cursor 0 (by decide) modules
  rw [codeSize, ite_error_eq_ok, Except.ok.injEq] at hcode
  have hlen : (List.replicate size (0 : UInt8)).length = size := List.length_replicate
  have hlt := hcursor.2
  have := copyModules_fits hsize (by omega) (by omega) hcopied
  omega

-- The export of a name, and the places where the relocations are.

theorem exports_placed (start : Nat) (modules : List ModuleView) :
    (exports (placed start modules)).map Prod.snd = modules.flatMap fun m => m.data.globals := by
  induction modules generalizing start with
  | nil => rfl
  | cons m rest ih =>
    have := ih (start + m.data.code.length)
    simp only [exports] at this ⊢
    simp [placed_cons, this, Function.comp_def]

theorem mem_exports {modules : List ModuleView} {e : ModuleView × Str} :
    e ∈ exports modules ↔ e.1 ∈ modules ∧ e.2 ∈ e.1.data.globals := by
  grind [exports]

theorem mem_sites {modules : List ModuleView} {site : ModuleView × Reloc} :
    site ∈ sites modules ↔ site.1 ∈ modules ∧ site.2 ∈ site.1.data.relocations := by
  grind [sites]

section Sites

variable {modules : List ModuleView} (hwf : ∀ m ∈ modules, m.data.WellFormed)
  (hfit : ((concatenated modules).length : Int) < 2 ^ 63)

include hwf hfit

theorem sitePos_placed {site : ModuleView × Reloc} (h : site ∈ sites (placed 0 modules)) :
    sitePos site = site.1.base + site.2.offset ∧ 0 ≤ sitePos site ∧
      sitePos site + 2 ≤ (concatenated modules).length := by
  obtain ⟨hm, hr⟩ := mem_sites.mp h
  obtain ⟨m', hm', hdata⟩ := placed_data hm
  have hin := placed_inside hm
  have hfield := (hwf m' hm').fields site.2 (by rw [hdata]; exact hr)
  rw [hdata] at hfield
  have hpos : sitePos site = site.1.base + site.2.offset :=
    wrap64_eq_self ⟨by omega, by omega⟩
  omega

theorem sites_pos : (sites (placed 0 modules)).map sitePos = (modules.mapIdx fun i m =>
    m.data.relocations.map fun r => (offsetOf modules i : Int) + r.offset).flatten := by
  have hpos : (sites (placed 0 modules)).map sitePos =
      (sites (placed 0 modules)).map fun site => site.1.base + site.2.offset :=
    List.map_congr_left fun site hsite => (sitePos_placed hwf hfit hsite).1
  rw [hpos, sites, List.map_flatMap, List.flatMap_def]
  congr 1
  apply List.ext_getElem
  · simp [placed]
  · simp [placed]

theorem sites_apart :
    (sites (placed 0 modules)).Pairwise fun a b => Apart (sitePos a) (sitePos b) := by
  have hsites : (sites (placed 0 modules)).Pairwise fun a b =>
      a.1.base + a.2.offset + 2 ≤ b.1.base + b.2.offset := by
    rw [sites, List.pairwise_flatMap]
    refine ⟨?_, (placed_ordered 0 modules).imp_of_mem ?_⟩
    · intro m hm
      obtain ⟨m', hm', hdata⟩ := placed_data hm
      have hordered := (hwf m' hm').ordered
      grind
    · intro a b ha hb hab x hx y hy
      obtain ⟨r, hr, rfl⟩ := List.mem_map.mp hx
      obtain ⟨s, hs, rfl⟩ := List.mem_map.mp hy
      obtain ⟨a', ha', hdata⟩ := placed_data ha
      obtain ⟨b', hb', hdata'⟩ := placed_data hb
      have hfield := (hwf a' ha').fields r (by rw [hdata]; exact hr)
      have hfield' := (hwf b' hb').fields s (by rw [hdata']; exact hs)
      rw [hdata] at hfield
      simp only
      omega
  refine hsites.imp_of_mem ?_
  intro a b ha hb hab
  rw [(sitePos_placed hwf hfit ha).1, (sitePos_placed hwf hfit hb).1]
  exact Or.inl hab

end Sites

end Wirth.Toolchain.Linker

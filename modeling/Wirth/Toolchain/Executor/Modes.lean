import Wirth.Toolchain.Executor.Loading
import Wirth.Toolchain.Linker.Correct

namespace Wirth.Toolchain.Executor

open Wirth.Lib Wirth.Toolchain.Json Wirth.Toolchain.Linker

theorem placeInMemory_eq_ok {base : Int} {code mem : List UInt8} :
    placeInMemory base code = .ok mem ↔ (0 ≤ base ∧ base + code.length ≤ memorySize) ∧
      splice (List.replicate memorySize 0) base.toNat code = mem := by
  rw [placeInMemory, ite_error_eq_ok, copyTo_eq_ok, List.length_replicate]
  constructor
  · rintro ⟨_, h⟩
    exact h
  · intro h
    have hsize : (memorySize : Int) = 65536 := rfl
    refine ⟨?_, h⟩
    rw [wrap64_eq_self ⟨by omega, by omega⟩]
    omega

section Modes

variable {D : Type} [Floating D] {modules : List ModuleView} {entrySymbol : Option Str} {L : Int}
  {abs : Image}

-- The two initial states have the same counter, and the same memory exactly if adding the
-- load address to the relocated fields changes nothing.
theorem initial_states (hL : 0 ≤ L) (habs : linkImage modules absolute L entrySymbol = .ok abs)
    (hfit : L + abs.size ≤ memorySize) :
    ∃ rel code sa sr, (∀ L', linkImage modules relocatable L' entrySymbol = .ok rel) ∧
      (∀ la, loadImage (assigned (imageMembers abs : List (Str × Value D))) la = .ok sa) ∧
      loadImage (assigned (imageMembers rel : List (Str × Value D))) (some L) = .ok sr ∧
      updates abs.code (shifts L (patchPositions modules)) = .ok code ∧
      sa.mem = splice (List.replicate memorySize 0) L.toNat abs.code ∧
      sr.mem = splice (List.replicate memorySize 0) L.toNat code ∧
      (sa = sr ↔ code = abs.code) := by
  obtain ⟨globals, copied, entry, hl⟩ := linkImage_eq_ok.mp habs
  have hmem : (memorySize : Int) = 65536 := rfl
  have hsize : abs.size = abs.code.length := congrArg Image.size hl.image_eq
  have hrange : InRange64 L := ⟨by omega, by omega⟩
  obtain ⟨code, hcode⟩ : ∃ code,
      updates abs.code (shifts L (patchPositions modules)) = .ok code := by
    refine updates_ok fun u hu => ?_
    obtain ⟨off, hoff, rfl⟩ := List.mem_map.mp hu
    obtain ⟨site, hsite, rfl⟩ := List.mem_map.mp hoff
    have hmem : (sitePos site, fun _ => siteTarget globals site) ∈
        siteUpdates globals (sites (placeModules 0 modules).1) := List.mem_map_of_mem hsite
    have hin := updates_range hl.code hmem
    rw [updates_length hl.code]
    exact hin
  have hlen := updates_length hcode
  have hplaceAbs : placeInMemory L abs.code = .ok _ := placeInMemory_eq_ok.mpr ⟨by omega, rfl⟩
  have hplaceRel : placeInMemory L code = .ok _ := placeInMemory_eq_ok.mpr ⟨by omega, rfl⟩
  have hmode : abs.mode = absolute := congrArg Image.mode hl.image_eq
  have haddr : abs.loadAddress = L := congrArg Image.loadAddress hl.image_eq
  have hentry : abs.entry = wrap64 (entry + L) := congrArg Image.entry hl.image_eq
  have hrelReadable := readable_of_linked (fun _ => hrange) (hl.relocatable_of_absolute L)
  refine ⟨makeImage relocatable 0 entry globals ⟨abs.code, patchPositions modules⟩, code,
    ⟨splice (List.replicate memorySize 0) L.toNat abs.code, List.replicate registerCount 0,
      wrap64 (entry + L)⟩,
    ⟨splice (List.replicate memorySize 0) L.toNat code, List.replicate registerCount 0,
      wrap64 (entry + L)⟩,
    fun L' => linkImage_eq_ok.mpr ⟨_, _, _, hl.relocatable_of_absolute L'⟩, ?_, ?_, hcode, rfl, rfl,
    ?_⟩
  · grind [loadImage_absolute, readable_of_linked, ok_bind]
  · rw [loadImage_relocatable hrelReadable rfl]
    show (updates abs.code (shifts L (patchPositions modules)) >>= fun code =>
      placeInMemory L code >>= fun mem =>
        .ok (Machine.mk mem (List.replicate registerCount 0) (wrap64 (entry + L)))) = _
    rw [hcode, ok_bind, hplaceRel, ok_bind]
  · grind [splice_inj]

theorem patchPositions_nodup (hwf : ∀ m ∈ modules, m.data.WellFormed)
    (hfit : ((concatenated modules).length : Int) < 2 ^ 63) : (patchPositions modules).Nodup := by
  have hplace := @placeModules_eq modules 0 (fun m hm => (hwf m hm).size) (by simpa using hfit)
  grind [patchPositions, sites_apart, Apart]

-- An absolute link never adds the load address to the fields it patches. The two modes
-- agree when there is nothing to add or nothing to add it to. With at most one relocation at
-- each position, as the assembler makes them, they agree in no other case.
theorem link_modes_agree_iff (hL : 0 ≤ L)
    (habs : linkImage modules absolute L entrySymbol = .ok abs)
    (hfit : L + abs.size ≤ memorySize) :
    ∃ rel sa sr, (∀ L', linkImage modules relocatable L' entrySymbol = .ok rel) ∧
      (∀ la, loadImage (assigned (imageMembers abs : List (Str × Value D))) la = .ok sa) ∧
      loadImage (assigned (imageMembers rel : List (Str × Value D))) (some L) = .ok sr ∧
      (L = 0 ∨ (∀ m ∈ modules, m.data.relocations = []) → sa = sr ∧ ∀ la maxSteps,
        runImage (assigned (imageMembers abs : List (Str × Value D))) la maxSteps =
          runImage (assigned (imageMembers rel : List (Str × Value D))) (some L) maxSteps) ∧
      ((patchPositions modules).Nodup ∨ (∀ m ∈ modules, Assembler.FromSource m.data) →
        (sa = sr ↔ L = 0 ∨ ∀ m ∈ modules, m.data.relocations = [])) := by
  obtain ⟨rel, code, sa, sr, hrel, hsa, hsr, hcode, _, _, hiff⟩ :=
    initial_states (D := D) hL habs hfit
  have hsame : L = 0 ∨ (∀ m ∈ modules, m.data.relocations = []) → sa = sr := by
    rw [hiff]
    rintro (rfl | hnone)
    · exact updates_shifts_zero hcode
    · rw [patchPositions_eq_nil.mpr hnone] at hcode
      cases hcode
      rfl
  have hdiffer : (patchPositions modules).Nodup → sa = sr →
      L = 0 ∨ ∀ m ∈ modules, m.data.relocations = [] := by
    intro hnodup h
    rw [hiff] at h
    subst h
    by_cases hne : patchPositions modules = []
    · exact Or.inr (patchPositions_eq_nil.mp hne)
    · -- a field takes two bytes, so the load address is below 2^16 and shows in the lowest one
      have hzero := updates_shifts_eq_self hnodup hne hcode
      obtain ⟨off, hoff⟩ := List.exists_mem_of_ne_nil _ hne
      have hin := updates_range hcode (List.mem_map_of_mem hoff)
      obtain ⟨_, _, _, hl⟩ := linkImage_eq_ok.mp habs
      have hsize : abs.size = abs.code.length := congrArg Image.size hl.image_eq
      have hmem : (memorySize : Int) = 65536 := rfl
      simp only at hin
      left
      omega
  refine ⟨rel, sa, sr, hrel, hsa, hsr, ?_, ?_⟩
  · intro h
    refine ⟨hsame h, fun la maxSteps => ?_⟩
    rw [runImage, runImage, hsa, hsr, hsame h]
  · rintro (hnodup | hsource)
    · exact ⟨hdiffer hnodup, hsame⟩
    · have hwf : ∀ m ∈ modules, m.data.WellFormed := fun m hm => (hsource m hm).wellFormed
      have hroom := linkImage_fits (fun m hm => (hwf m hm).size) habs
      exact ⟨hdiffer (patchPositions_nodup hwf hroom), hsame⟩

end Modes

-- The pair of modules linked for address 4096: `LOAD R1, value` should read the word at
-- 4104, and the absolute image has it read the word at 8.
theorem link_modes_differ : ∃ abs rel sa sr,
    linkImage [caller, callee] absolute 4096 none = .ok abs ∧ 4096 + abs.size ≤ memorySize ∧
    linkImage [caller, callee] relocatable 4096 none = .ok rel ∧
    loadImage (assigned (imageMembers abs : List (Str × Value Empty))) none = .ok sa ∧
    loadImage (assigned (imageMembers rel : List (Str × Value Empty))) (some 4096) = .ok sr ∧
    sa ≠ sr ∧ u16At sa.mem 4098 = 8 ∧ u16At sr.mem 4098 = 4104 := by
  have habs : linkImage [caller, callee] absolute 4096 none =
      .ok ⟨absolute, 15, 4096, 4096, pairImage.code, [],
        [(lit "start", 4096), (lit "value", 4104)]⟩ := by
    decide +kernel
  obtain ⟨rel, code, sa, sr, hrel, hsa, hsr, hcode, hmem, hmem', _⟩ :=
    initial_states (D := Empty) (by decide) habs (by decide)
  have hshift : updates pairImage.code (shifts 4096 (patchPositions [caller, callee])) =
      .ok [17, 1, 8, 16, 48, 4, 16, 0, 7, 0, 0, 0, 48, 7, 16] := by
    decide +kernel
  rw [show _ = Except.ok code from hcode, Except.ok.injEq] at hshift
  subst hshift
  have hword : ∀ v : List UInt8, v.length = 15 →
      u16At (splice (List.replicate memorySize 0) 4096 v) 4098 = u16At v 2 := by
    intro v hv
    have hroom : 4096 + v.length ≤ (List.replicate memorySize (0 : UInt8)).length := by
      rw [List.length_replicate, hv]
      decide
    rw [u16At, u16At, splice_getD hroom, splice_getD hroom, if_pos (by omega), if_pos (by omega)]
  have h8 : u16At sa.mem 4098 = 8 := by
    rw [hmem, show (4096 : Int).toNat = 4096 from rfl, hword _ rfl]
    rfl
  have h4104 : u16At sr.mem 4098 = 4104 := by
    rw [hmem', show (4096 : Int).toNat = 4096 from rfl, hword _ rfl]
    rfl
  refine ⟨_, rel, sa, sr, habs, by decide, hrel 4096, hsa none, hsr, ?_, h8, h4104⟩
  rintro rfl
  omega

-- At address 0 the two modes agree.
theorem link_modes_agree_iff_zero : ∃ abs rel,
    linkImage [caller, callee] absolute 0 none = .ok abs ∧
    linkImage [caller, callee] relocatable 0 none = .ok rel ∧ ∀ maxSteps,
      runImage (assigned (imageMembers abs : List (Str × Value Empty))) none maxSteps =
        runImage (assigned (imageMembers rel : List (Str × Value Empty))) (some 0) maxSteps := by
  have habs : linkImage [caller, callee] absolute 0 none =
      .ok ⟨absolute, 15, 0, 0, pairImage.code, [], [(lit "start", 0), (lit "value", 8)]⟩ := by
    decide +kernel
  obtain ⟨rel, sa, sr, hrel, _, _, hagree, _⟩ :=
    link_modes_agree_iff (D := Empty) (by decide) habs (by decide)
  exact ⟨_, rel, habs, hrel 0, (hagree (Or.inl rfl)).2 none⟩

end Wirth.Toolchain.Executor

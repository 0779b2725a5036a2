import Wirth.Toolchain.Executor.Machine
import Wirth.Toolchain.Linker.Relocation

namespace Wirth.Toolchain.Executor

open Wirth.Lib Wirth.Toolchain.Json Wirth.Toolchain.Linker

variable {D : Type}

-- The members of an image that the executor reads have the values that were written.

theorem imageMembers_nodup (image : Image) :
    ((imageMembers image : List (Str × Value D)).map Prod.fst).Nodup := by
  show [lit "format", lit "mode", lit "size", lit "entry", lit "load_address", lit "code",
    lit "relocations", lit "symbols"].Nodup
  decide

section Members

variable (image : Image)

theorem atKey_mode : atKey (assigned (imageMembers image : List (Str × Value D))) (lit "mode") =
    .ok (.str image.mode) := by
  rw [atKey_assigned (imageMembers_nodup image)]
  rfl

theorem atKey_code : atKey (assigned (imageMembers image : List (Str × Value D))) (lit "code") =
    .ok (codeJson image.code) := by
  rw [atKey_assigned (imageMembers_nodup image)]
  rfl

theorem atKey_entry : atKey (assigned (imageMembers image : List (Str × Value D))) (lit "entry") =
    .ok (.ofInt image.entry) := by
  rw [atKey_assigned (imageMembers_nodup image)]
  rfl

theorem atKey_loadAddress :
    atKey (assigned (imageMembers image : List (Str × Value D))) (lit "load_address") =
      .ok (.ofInt image.loadAddress) := by
  rw [atKey_assigned (imageMembers_nodup image)]
  rfl

theorem atKey_relocations :
    atKey (assigned (imageMembers image : List (Str × Value D))) (lit "relocations") =
      .ok (.arr (image.relocations.map pendingJson)) := by
  rw [atKey_assigned (imageMembers_nodup image)]
  rfl

end Members

variable [Floating D]

structure Readable (image : Image) : Prop where
  entry : InRange64 image.entry
  loadAddress : InRange64 image.loadAddress
  relocations : ∀ off ∈ image.relocations, InRange64 off

theorem relocate_eq_update {base : Int} {code : List UInt8} {item : Value D} {off : Int}
    (h : relocOffset item = .ok off) :
    relocate base code item = update code (off, fun w => wrap64 (w + base)) := by
  rw [relocate, h, ok_bind, update]

theorem relocate_pendingJson (base : Int) (code : List UInt8) {off : Int} (h : InRange64 off) :
    relocate base code (pendingJson off : Value D) =
      update code (off, fun w => wrap64 (w + base)) := by
  have hkey : atKey (assigned [(lit "offset", (Value.ofInt off : Value D)),
      (lit "size", Value.ofInt 2)]) (lit "offset") = .ok (.ofInt off) := by
    rfl
  apply relocate_eq_update
  rw [relocOffset, pendingJson, members, Value.asObject, ok_bind, hkey, ok_bind,
    Value.asInt_ofInt h]

theorem foldlM_relocate (base : Int) (code : List UInt8) {offsets : List Int}
    (h : ∀ off ∈ offsets, InRange64 off) :
    (offsets.map (pendingJson (D := D))).foldlM (relocate base) code =
      updates code (shifts base offsets) := by
  induction offsets generalizing code with
  | nil => rfl
  | cons off rest ih =>
    rw [List.map_cons, List.foldlM_cons, relocate_pendingJson base code (h off (by simp)),
      shifts, List.map_cons, updates, List.foldlM_cons]
    congr 1
    funext mid
    exact ih mid fun x hx => h x (List.mem_cons_of_mem _ hx)

variable {modules : List ModuleView} {image : Image} {globals : OrdMap Str Int}

theorem imageAddress_eq (hr : Readable image) :
    imageAddress (assigned (imageMembers image : List (Str × Value D))) =
      .ok image.loadAddress := by
  rw [imageAddress, atKey_loadAddress, ok_bind, Value.asInt_ofInt hr.loadAddress]

theorem loadImage_relocatable (hr : Readable image)
    (hmode : image.mode = relocatable) (loadAddress : Option Int) :
    loadImage (assigned (imageMembers image : List (Str × Value D))) loadAddress = (do
      let base := loadAddress.getD image.loadAddress
      let code ← updates image.code (shifts base image.relocations)
      let mem ← placeInMemory base code
      .ok ⟨mem, List.replicate registerCount 0, wrap64 (image.entry + base)⟩) := by
  have hbase : chooseBase (assigned (imageMembers image : List (Str × Value D))) loadAddress =
      .ok (loadAddress.getD image.loadAddress) := by
    cases loadAddress with
    | some base => rfl
    | none => exact imageAddress_eq hr
  have hne : relocatable ≠ absolute := by decide
  rw [loadImage, readPlan, atKey_mode, ok_bind, Value.asString, ok_bind, atKey_code, ok_bind,
    codeJson, Value.asArray, ok_bind, parseCode_codeJson, ok_bind, hmode, if_neg hne, hbase,
    ok_bind, atKey_relocations, ok_bind, Value.asArray, ok_bind, ok_bind,
    foldlM_relocate _ _ hr.relocations]
  simp only [ok_bind, atKey_entry, Value.asInt_ofInt hr.entry, if_true]

theorem loadImage_absolute (hr : Readable image) (hmode : image.mode = absolute)
    (loadAddress : Option Int) :
    loadImage (assigned (imageMembers image : List (Str × Value D))) loadAddress = (do
      let mem ← placeInMemory image.loadAddress image.code
      .ok ⟨mem, List.replicate registerCount 0, image.entry⟩) := by
  have hne : absolute ≠ relocatable := by decide
  rw [loadImage, readPlan, atKey_mode, ok_bind, Value.asString, ok_bind, atKey_code, ok_bind,
    codeJson, Value.asArray, ok_bind, parseCode_codeJson, ok_bind, hmode, if_pos rfl,
    imageAddress_eq hr, ok_bind, ok_bind, List.foldlM_nil]
  simp only [pure_bind, atKey_entry, ok_bind, Value.asInt_ofInt hr.entry, if_neg hne]

theorem imageEntry_inRange {modules : List ModuleView} {globals : OrdMap Str Int}
    {entrySymbol : Option Str} {entry : Int} (hg : ∀ name v, globals.find? name = some v → InRange64 v)
    (h : imageEntry modules globals entrySymbol = .ok entry) : InRange64 entry := by
  unfold imageEntry at h
  split at h
  · grind
  · split at h
    · cases h
      decide
    · cases h
      exact wrap64_inRange _

theorem collectGlobals_inRange
    (h : collectGlobals modules = .ok globals) {name : Str} {v : Int}
    (hv : globals.find? name = some v) : InRange64 v := by
  refine foldlM_invariant collectGlobal (fun g => ∀ name v, g.find? name = some v → InRange64 v)
    (exports modules) ?_ (by simp) h name v hv
  intro g e _ g' hg hstep name v hv
  unfold collectGlobal at hstep
  split at hstep
  · cases hstep
  · grind [OrdMap.find?_insert, wrap64_inRange]

theorem readable_of_linked {mode : Str} {loadAddress : Int}
    {entrySymbol : Option Str} {globals : OrdMap Str Int} {copied : List UInt8} {entry : Int}
    {image : Image} (hla : mode = absolute → InRange64 loadAddress)
    (h : Linked modules mode loadAddress entrySymbol globals copied entry image) :
    Readable image := by
  have hentry := imageEntry_inRange (fun _ _ => collectGlobals_inRange h.collected) h.start
  rw [h.image_eq]
  refine ⟨?_, ?_, ?_⟩
  · grind [makeImage, wrap64_inRange]
  · simp only [makeImage]
    split_ifs with hmode
    · exact hla hmode
    · decide
  · simp only [makeImage]
    split_ifs
    · intro off hoff
      obtain ⟨site, _, rfl⟩ := List.mem_map.mp hoff
      exact wrap64_inRange _
    · simp

end Wirth.Toolchain.Executor

import Wirth.Kernel.Storage.Operations
import Wirth.Kernel.Storage.RestoreSafety

namespace Wirth.Kernel.Storage

open Wirth.Lib Wirth.Kernel.Fs

-- The loop of `storage_restore_packages` over the index, with anything done for each entry.
def indexLoop {σ : Type} (visit : Str → Nat → Nat → σ → Program σ) (index : List UInt8) :
    Nat → Nat → σ → Program σ
  | 0, _, s => pure s
  | count + 1, off, s =>
      if 512 < uint32 (off + 12) then pure s
      else do
        let nameLen ← .ended (load32 index off)
        let start ← .ended (load32 index (off + 4))
        let sectors ← .ended (load32 index (off + 8))
        let off := uint32 (off + 12)
        if nameLen = 0 ∨ 512 < uint32 (off + nameLen) then pure s
        else do
          let name ← .ended (loadBytes (some index) off (min nameLen 127))
          let s ← visit (cText name) start sectors s
          indexLoop visit index count (uint32 (off + nameLen)) s

theorem restoreEntries_eq (alloc : Nat → Allocator) (index : List UInt8) (count off : Nat)
    (s : Restoring) :
    restoreEntries alloc index count off s = indexLoop (restoreEntry alloc) index count off s := by
  induction count generalizing off s with
  | zero => rfl
  | succ count ih => simp only [restoreEntries, indexLoop, ih]

def enumerated (index : List UInt8) : Program (List Entry) :=
  indexLoop (fun name start sectors seen => pure (seen ++ [⟨name, start, sectors⟩])) index
    (at32 index 0) 4 []

-- What the arguments of `storage_add_index_entry` can be, if the name is short enough.
structure Entry.Short (e : Entry) : Prop where
  nonempty : e.name ≠ []
  length_le : e.name.length ≤ 127
  text : 0 ∉ e.name
  start_lt : e.startLba < 2 ^ 32
  sectors_lt : e.sectors < 2 ^ 32

instance (e : Entry) : Decidable e.Short :=
  decidable_of_iff (e.name ≠ [] ∧ e.name.length ≤ 127 ∧ 0 ∉ e.name ∧ e.startLba < 2 ^ 32 ∧
      e.sectors < 2 ^ 32)
    ⟨fun h => ⟨h.1, h.2.1, h.2.2.1, h.2.2.2.1, h.2.2.2.2⟩,
      fun h => ⟨h.nonempty, h.length_le, h.text, h.start_lt, h.sectors_lt⟩⟩

theorem indexLoop_encoded {σ : Type} {visit : Str → Nat → Nat → σ → Program σ} {es : List Entry}
    {pre rest : List UInt8} (hshort : ∀ e ∈ es, e.Short)
    (hlen : pre.length + (encodeEntries es).length ≤ 512) (s : σ) :
    indexLoop visit (pre ++ (encodeEntries es ++ rest)) es.length pre.length s =
      es.foldlM (fun s e => visit e.name e.startLba e.sectors s) s := by
  induction es generalizing pre s with
  | nil => rfl
  | cons e es ih =>
    have he := hshort e (by simp)
    have hle := he.length_le
    have hpos := List.length_pos_iff.mpr he.nonempty
    rw [encodeEntries_cons, List.length_append, Entry.encode_length] at hlen
    obtain ⟨hname, hlba, hcount, hdrop⟩ := @encoded_fields e (by omega) he.start_lt he.sectors_lt pre
      (encodeEntries es ++ rest)
    have hsize : (pre ++ (e.encode ++ (encodeEntries es ++ rest))).length =
        pre.length + (12 + e.name.length) + ((encodeEntries es).length + rest.length) := by
      simp only [List.length_append, Entry.encode_length]
      omega
    have hload : loadBytes (some (pre ++ (e.encode ++ (encodeEntries es ++ rest))))
        (pre.length + 12) (min e.name.length 127) = .returned e.name := by
      rw [Nat.min_eq_left hle, loadBytes, if_neg (by omega), if_pos (by omega), hdrop]
    have hshape : pre ++ (e.encode ++ (encodeEntries es ++ rest)) =
        (pre ++ e.encode) ++ (encodeEntries es ++ rest) := (List.append_assoc _ _ _).symm
    have hnext : pre.length + 12 + e.name.length = (pre ++ e.encode).length := by
      rw [List.length_append, Entry.encode_length]
      omega
    rw [encodeEntries_cons, List.append_assoc, List.length_cons, indexLoop,
      uint32_eq_self (n := pre.length + 12) (by omega), if_neg (by omega),
      load32_inside (by omega), load32_inside (by omega), load32_inside (by omega)]
    simp only [Program.ended_bind, hname, hlba, hcount]
    rw [uint32_eq_self (by omega), if_neg (by omega), hload, List.foldlM_cons, hnext, hshape]
    simp only [Program.ended_bind, cText_of_text he.text]
    grind

theorem foldlM_collect (es seen : List Entry) :
    es.foldlM (fun seen e => (pure (seen ++ [⟨e.name, e.startLba, e.sectors⟩]) : Program (List Entry)))
      seen = pure (seen ++ es) := by
  induction es generalizing seen with
  | nil => rw [List.foldlM_nil, List.append_nil]
  | cons e es ih =>
    rw [List.foldlM_cons, Program.pure_bind, ih, List.append_assoc, List.singleton_append]

theorem Holds.indexLoop {σ : Type} {sector : Sector} {es : List Entry} (h : Holds sector es)
    (hshort : ∀ e ∈ es, e.Short) (visit : Str → Nat → Nat → σ → Program σ) (s : σ) :
    indexLoop visit sector.bytes (at32 sector.bytes 0) 4 s =
      es.foldlM (fun s e => visit e.name e.startLba e.sectors s) s := by
  have hlen := h.length_le
  obtain ⟨rest, hrest⟩ := h.layout
  rw [h.count, hrest]
  exact @indexLoop_encoded σ visit es (le32 es.length) rest hshort hlen s

-- Calls of `storage_add_index_entry`, one after the other, on a disk that does not fail.

def addEntry (d : Disk) (e : Entry) : Outcome Bool :=
  (storageAddIndexEntry e.name e.startLba e.sectors).exec d .none

def afterEntry (d : Disk) (e : Entry) : Disk := d.apply (addEntry d e).writes

def acceptedEntries : Disk → List Entry → List Entry
  | _, [] => []
  | d, e :: es =>
      if (addEntry d e).result then e :: acceptedEntries (afterEntry d e) es
      else acceptedEntries (afterEntry d e) es

def usedBytes (es : List Entry) : Nat := (es.map fun e => 12 + e.name.length).sum

theorem encodeEntries_length (es : List Entry) : (encodeEntries es).length = usedBytes es := by
  rw [encodeEntries, List.length_flatMap, usedBytes]
  simp only [Entry.encode_length]

section Adding

variable {d : Disk} {es calls : List Entry} {e : Entry}

theorem addEntry_holds (h : Holds (d indexLba) es) (he : e.Short) :
    (512 < 4 + usedBytes es + (12 + e.name.length) ∧ (addEntry d e).result = false ∧
        afterEntry d e = d) ∨
      (4 + usedBytes es + (12 + e.name.length) ≤ 512 ∧ (addEntry d e).result = true ∧
        Holds (afterEntry d e indexLba) (es ++ [e])) := by
  have hreliable : ([] : List Bool).headD false = false := rfl
  rcases exec_storageAddIndexEntry h (Or.inl hreliable) ⟨he.start_lt, he.sectors_lt⟩ rfl with
    ⟨hresult, hwrites, hbeyond⟩ | ⟨hresult, sector, hwrites, hholds⟩
  · rw [encodeEntries_length] at hbeyond
    refine Or.inl ⟨hbeyond, hresult, ?_⟩
    rw [afterEntry, addEntry, Failures.none, hwrites, Disk.apply_nil]
  · have hfits := hholds.length_le
    rw [encodeEntries_length, usedBytes, List.map_append, List.sum_append] at hfits
    refine Or.inr ⟨?_, hresult, ?_⟩
    · grind [usedBytes]
    · rw [afterEntry, addEntry, Failures.none, hwrites, Disk.apply, Disk.apply_nil,
        Function.update_self]
      exact hholds

theorem afterEntries_holds (h : Holds (d indexLba) es) (hcalls : ∀ e ∈ calls, e.Short) :
    Holds (calls.foldl afterEntry d indexLba) (es ++ acceptedEntries d calls) := by
  induction calls generalizing d es with
  | nil => simpa [acceptedEntries] using h
  | cons e calls ih =>
    have hrest : ∀ x ∈ calls, x.Short := fun x hx => hcalls x (List.mem_cons_of_mem _ hx)
    rw [List.foldl_cons, acceptedEntries]
    rcases addEntry_holds h (hcalls e (by simp)) with ⟨_, hresult, hsame⟩ | ⟨_, hresult, hholds⟩
    · rw [hresult, hsame]
      exact ih h hrest
    · rw [hresult, if_pos rfl, ← List.singleton_append, ← List.append_assoc]
      exact ih hholds hrest

theorem acceptedEntries_sublist (d : Disk) (calls : List Entry) :
    List.Sublist (acceptedEntries d calls) calls := by
  induction calls generalizing d with
  | nil => exact List.Sublist.refl _
  | cons e calls ih =>
    grind [acceptedEntries]

theorem restorePackages_accepted (h : Holds (d indexLba) es) (hshort : ∀ e ∈ es, e.Short)
    (alloc : Nat → Allocator) (fs : RamFs) :
    (storageRestorePackages alloc fs).exec d .none =
      ((es.foldlM (fun s e => restoreEntry alloc e.name e.startLba e.sectors s) ⟨fs, 0⟩ :
        Program Restoring) >>= fun s => pure s.fs).exec d .none := by
  have hread : (Program.device (storageReadRaw indexLba 1)).exec d .none =
      ⟨.returned (some (d indexLba).bytes), [], .none⟩ := by
    rw [Program.exec_device, Failures.none, exec_readIndex]
    rfl
  rw [storageRestorePackages, Program.exec_bind_read hread]
  dsimp only
  rw [restoreEntries_eq, h.indexLoop hshort]

-- What is written is what is read, and an entry that does not fit changes nothing.
theorem index_codec (hzero : d indexLba = .zero) (hcalls : ∀ e ∈ calls, e.Short) :
    let after := calls.foldl afterEntry d
    let accepted := acceptedEntries d calls
    enumerated (after indexLba).bytes = pure accepted ∧
      (∀ alloc fs, (storageRestorePackages alloc fs).exec after .none =
        ((accepted.foldlM (fun s e => restoreEntry alloc e.name e.startLba e.sectors s) ⟨fs, 0⟩ :
          Program Restoring) >>= fun s => pure s.fs).exec after .none) ∧
      ∀ e : Entry, e.Short →
        ((addEntry after e).result = false ↔ 512 < 4 + usedBytes accepted + (12 + e.name.length)) ∧
        ((addEntry after e).result = false → afterEntry after e = after) := by
  intro after accepted
  have hempty : Holds (d indexLba) [] := by
    rw [hzero]
    exact holds_zero
  have hholds : Holds (after indexLba) accepted := afterEntries_holds hempty hcalls
  have hshort : ∀ e ∈ accepted, e.Short :=
    fun e he => hcalls e ((acceptedEntries_sublist d calls).subset he)
  refine ⟨?_, restorePackages_accepted hholds hshort, fun e he => ?_⟩
  · rw [enumerated, hholds.indexLoop hshort, foldlM_collect, List.nil_append]
  · rcases addEntry_holds hholds he with ⟨hbeyond, hresult, hsame⟩ | ⟨hfits, hresult, _⟩
    · exact ⟨iff_of_true hresult hbeyond, fun _ => hsame⟩
    · rw [hresult]
      exact ⟨iff_of_false nofun (by omega), nofun⟩

end Adding

-- Three entries with the longest names, one that is a byte too long for the rest of the sector, and
-- one that fills it to the last byte.
def filling : List Entry :=
  [⟨List.replicate 127 (chr 'a'), 10, 1⟩, ⟨List.replicate 127 (chr 'b'), 11, 2⟩,
    ⟨List.replicate 127 (chr 'c'), 13, 1⟩, ⟨List.replicate 80 (chr 'd'), 14, 1⟩,
    ⟨List.replicate 79 (chr 'e'), 15, 1⟩]

theorem filled_index : enumerated ((filling.foldl afterEntry fun _ => .zero) indexLba).bytes =
    pure [⟨List.replicate 127 (chr 'a'), 10, 1⟩, ⟨List.replicate 127 (chr 'b'), 11, 2⟩,
      ⟨List.replicate 127 (chr 'c'), 13, 1⟩, ⟨List.replicate 79 (chr 'e'), 15, 1⟩] := by
  have haccepted : acceptedEntries (fun _ => .zero) filling =
      [⟨List.replicate 127 (chr 'a'), 10, 1⟩, ⟨List.replicate 127 (chr 'b'), 11, 2⟩,
        ⟨List.replicate 127 (chr 'c'), 13, 1⟩, ⟨List.replicate 79 (chr 'e'), 15, 1⟩] := by
    decide +kernel
  rw [← haccepted]
  exact (@index_codec (fun _ => .zero) filling rfl (by decide +kernel)).1

end Wirth.Kernel.Storage

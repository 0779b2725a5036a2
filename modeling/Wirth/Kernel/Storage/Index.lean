import Wirth.Kernel.Storage.Storage

namespace Wirth.Kernel.Storage

open Wirth.Lib

structure Entry where
  name : Str
  startLba : Nat
  sectors : Nat
  deriving DecidableEq

-- The entries that the loops over the index see, with the place where they end.
def readEntries (index : List UInt8) : Nat → Nat → Option (List Entry × Nat)
  | 0, off => some ([], off)
  | count + 1, off =>
      if 512 < uint32 (off + 12) then none
      else
        let nameLen := at32 index off
        let next := uint32 (off + uint32 (12 + nameLen))
        if 512 < next then none
        else (readEntries index count next).map fun rest =>
          (⟨(index.drop (off + 12)).take nameLen, at32 index (off + 4), at32 index (off + 8)⟩ ::
            rest.1, rest.2)

def indexEntries (sector : Sector) : Option (List Entry) :=
  (readEntries sector.bytes (at32 sector.bytes 0) 4).map Prod.fst

theorem skipEntries_eq (index : List UInt8) (count off : Nat) :
    skipEntries index count off = (readEntries index count off).map Prod.snd := by
  induction count generalizing off with
  | zero => rfl
  | succ count ih =>
    simp only [skipEntries, readEntries]
    split_ifs
    · rfl
    · rfl
    · rw [ih, Option.map_map]
      rfl

def Entry.encode (e : Entry) : List UInt8 :=
  le32 e.name.length ++ (le32 e.startLba ++ (le32 e.sectors ++ e.name))

def encodeEntries (es : List Entry) : List UInt8 := es.flatMap Entry.encode

@[simp] theorem Entry.encode_length (e : Entry) : e.encode.length = 12 + e.name.length := by
  simp only [encode, List.length_append, le32_length]
  omega

structure Holds (sector : Sector) (es : List Entry) : Prop where
  layout : ∃ rest, sector.bytes = le32 es.length ++ (encodeEntries es ++ rest)
  bounded : ∀ e ∈ es, e.startLba < 2 ^ 32 ∧ e.sectors < 2 ^ 32

theorem holds_zero : Holds .zero [] :=
  ⟨⟨List.replicate 508 0, rfl⟩, fun _ he => absurd he List.not_mem_nil⟩

variable {sector : Sector} {es : List Entry} {e : Entry}

theorem Holds.length_le (h : Holds sector es) :
    4 + (encodeEntries es).length ≤ 512 := by
  obtain ⟨rest, hrest⟩ := h.layout
  have := congrArg List.length hrest
  simp only [sector.length_eq, List.length_append, le32_length] at this
  omega

theorem encodeEntries_cons (e : Entry) (es : List Entry) :
    encodeEntries (e :: es) = e.encode ++ encodeEntries es := rfl

theorem length_le_encodeEntries (es : List Entry) : es.length ≤ (encodeEntries es).length := by
  induction es with
  | nil => exact Nat.le_refl _
  | cons e es ih =>
    rw [encodeEntries_cons, List.length_append, Entry.encode_length, List.length_cons]
    omega

theorem encoded_fields (hname : e.name.length < 2 ^ 32) (hstart : e.startLba < 2 ^ 32)
    (hsectors : e.sectors < 2 ^ 32) (pre rest : List UInt8) :
    at32 (pre ++ (e.encode ++ rest)) pre.length = e.name.length ∧
      at32 (pre ++ (e.encode ++ rest)) (pre.length + 4) = e.startLba ∧
      at32 (pre ++ (e.encode ++ rest)) (pre.length + 8) = e.sectors ∧
      ((pre ++ (e.encode ++ rest)).drop (pre.length + 12)).take e.name.length = e.name := by
  refine ⟨?_, ?_, ?_, ?_⟩
  · grind [Entry.encode, at32_append]
  · have := @at32_append (pre ++ le32 e.name.length) (le32 e.sectors ++ (e.name ++ rest)) _ hstart
    simpa [Entry.encode] using this
  · have := @at32_append (pre ++ (le32 e.name.length ++ le32 e.startLba)) (e.name ++ rest) _ hsectors
    simpa [Entry.encode] using this
  simp [le32, Entry.encode]

theorem readEntries_encoded {pre rest : List UInt8}
    (hbounded : ∀ e ∈ es, e.startLba < 2 ^ 32 ∧ e.sectors < 2 ^ 32)
    (hlen : pre.length + (encodeEntries es).length ≤ 512) :
    readEntries (pre ++ (encodeEntries es ++ rest)) es.length pre.length =
      some (es, pre.length + (encodeEntries es).length) := by
  induction es generalizing pre with
  | nil => rfl
  | cons e es ih =>
    rw [encodeEntries_cons, List.length_append, Entry.encode_length] at hlen
    obtain ⟨hstart, hsectors⟩ := hbounded e (by simp)
    obtain ⟨hname, hlba, hcount, hdrop⟩ := @encoded_fields e (by omega) hstart hsectors pre
      (encodeEntries es ++ rest)
    have hnext : uint32 (pre.length + uint32 (12 + e.name.length)) = (pre ++ e.encode).length := by
      rw [uint32_eq_self (n := 12 + e.name.length) (by omega), uint32_eq_self (by omega),
        List.length_append, Entry.encode_length]
    have htail := @ih (pre ++ e.encode) (fun x hx => hbounded x (List.mem_cons_of_mem _ hx)) (by
      rw [List.length_append, Entry.encode_length]
      omega)
    have hshape : pre ++ (e.encode ++ (encodeEntries es ++ rest)) =
        (pre ++ e.encode) ++ (encodeEntries es ++ rest) := (List.append_assoc _ _ _).symm
    rw [List.length_cons, readEntries, if_neg (by rw [uint32_eq_self (by omega)]; omega),
      encodeEntries_cons, List.append_assoc]
    simp only [hname, hlba, hcount, hdrop, hnext]
    rw [if_neg (by rw [List.length_append, Entry.encode_length]; omega), hshape, htail]
    simp only [Option.map_some, List.length_append, Nat.add_assoc]

theorem Holds.count (h : Holds sector es) :
    at32 sector.bytes 0 = es.length := by
  have hlen := h.length_le
  have hcount := length_le_encodeEntries es
  obtain ⟨rest, hrest⟩ := h.layout
  rw [hrest]
  exact @at32_append [] _ _ (by omega)

theorem Holds.readEntries (h : Holds sector es) :
    readEntries sector.bytes (at32 sector.bytes 0) 4 = some (es, 4 + (encodeEntries es).length) := by
  have hlen := h.length_le
  obtain ⟨rest, hrest⟩ := h.layout
  rw [h.count, hrest]
  exact @readEntries_encoded es (le32 es.length) rest h.bounded hlen

theorem Holds.indexEntries (h : Holds sector es) :
    indexEntries sector = some es := by
  rw [Storage.indexEntries, h.readEntries, Option.map_some]

theorem Holds.append (h : Holds sector es)
    (hbounded : e.startLba < 2 ^ 32 ∧ e.sectors < 2 ^ 32)
    (hfits : 4 + (encodeEntries es).length + (12 + e.name.length) ≤ 512) :
    Holds (.ofBytes (appendEntry sector.bytes (4 + (encodeEntries es).length) e.name e.startLba
      e.sectors (at32 sector.bytes 0))) (es ++ [e]) := by
  have hcount := length_le_encodeEntries es
  obtain ⟨rest, hrest⟩ := h.layout
  have hlength := congrArg List.length hrest
  simp only [sector.length_eq, List.length_append, le32_length] at hlength
  have htake : (le32 es.length ++ (encodeEntries es ++ rest)).take
      (4 + (encodeEntries es).length) = le32 es.length ++ encodeEntries es := by
    rw [← List.append_assoc, List.take_left' (by simp)]
  have hdrop : (le32 es.length ++ (encodeEntries es ++ rest)).drop
      (4 + (encodeEntries es).length + e.encode.length) = rest.drop e.encode.length := by
    rw [← List.append_assoc, ← List.drop_drop, List.drop_left' (by simp)]
  have hnew : appendEntry sector.bytes (4 + (encodeEntries es).length) e.name e.startLba e.sectors
      (at32 sector.bytes 0) =
      le32 (es ++ [e]).length ++ (encodeEntries (es ++ [e]) ++ rest.drop e.encode.length) := by
    rw [h.count, hrest, appendEntry, uint32_eq_self (by omega)]
    simp only [splice]
    rw [← Entry.encode, htake, hdrop]
    simp only [List.append_assoc, List.take_zero, List.nil_append, Nat.zero_add, le32_length,
      List.drop_left' (le32_length _), List.length_append, List.length_singleton, encodeEntries,
      List.flatMap_append, List.flatMap_singleton]
  have hbytes : (Sector.ofBytes (appendEntry sector.bytes (4 + (encodeEntries es).length) e.name
      e.startLba e.sectors (at32 sector.bytes 0))).bytes =
      le32 (es ++ [e]).length ++ (encodeEntries (es ++ [e]) ++ rest.drop e.encode.length) := by
    rw [hnew]
    refine Sector.bytes_ofBytes_full ?_
    simp only [encodeEntries, List.flatMap_append, List.flatMap_singleton, List.length_append,
      le32_length, List.length_drop, Entry.encode_length]
    unfold encodeEntries at hfits hlength
    omega
  refine ⟨⟨_, hbytes⟩, fun x hx => ?_⟩
  rcases List.mem_append.mp hx with hx | hx
  · exact h.bounded x hx
  grind

end Wirth.Kernel.Storage

import Mathlib.Data.BitVec
import Wirth.Lib.Word

namespace Wirth.Lib.X86

abbrev Word := BitVec 32

abbrev Table := Fin 1024 → Word

theorem land_1023_lt (w : Word) : (w &&& 0x3FF).toNat < 1024 := by
  simp [Nat.and_le_right, Nat.lt_succ_of_le]

-- The three parts of a linear address.

def dirIndex (virt : Word) : Fin 1024 := ⟨((virt >>> 22) &&& 0x3FF).toNat, land_1023_lt _⟩

def tblIndex (virt : Word) : Fin 1024 := ⟨((virt >>> 12) &&& 0x3FF).toNat, land_1023_lt _⟩

def pageOffset (virt : Word) : Word := virt &&& 0xFFF

def pageOf (virt : Word) : Word := virt >>> 12

-- The parts of an entry.

def frameOf (entry : Word) : Word := entry &&& 0xFFFFF000

def isPresent (entry : Word) : Bool := entry &&& 1 ≠ 0

def allowsWrite (entry : Word) : Bool := entry &&& 2 ≠ 0

def allowsUser (entry : Word) : Bool := entry &&& 4 ≠ 0

def entryFlags (write user : Bool) : Word :=
  let flags : Word := 0x1
  let flags := if write then flags ||| 0x2 else flags
  if user then flags ||| 0x4 else flags

def entryOf (frame : Word) (write user : Bool) : Word := frameOf frame ||| entryFlags write user

-- The frame that the processor finds behind an address: `tables` says which page table
-- physical memory holds at an address.
def walk (tables : Word → Option Table) (directory : Table) (virt : Word) : Option Word :=
  if isPresent (directory (dirIndex virt)) then
    match tables (frameOf (directory (dirIndex virt))) with
    | none => none
    | some table =>
        if isPresent (table (tblIndex virt)) then some (frameOf (table (tblIndex virt))) else none
  else none

theorem entryFlags_masked (write user : Bool) : entryFlags write user &&& 0xFFFFF000 = 0#32 := by
  cases write <;> cases user <;> rfl

theorem entryFlags_present (write user : Bool) : entryFlags write user &&& 1 = 1 := by
  cases write <;> cases user <;> rfl

@[simp] theorem frameOf_frameOf (frame : Word) : frameOf (frameOf frame) = frameOf frame := by
  rw [frameOf, frameOf, BitVec.and_assoc, BitVec.and_self]

@[simp] theorem frameOf_entryOf (frame : Word) (write user : Bool) :
    frameOf (entryOf frame write user) = frameOf frame := by
  rw [entryOf, frameOf, BitVec.and_or_distrib_right, entryFlags_masked, BitVec.or_zero]
  exact frameOf_frameOf frame

theorem frameOf_land_low (frame : Word) {mask : Word} (hmask : 0xFFFFF000 &&& mask = 0#32) :
    frameOf frame &&& mask = 0#32 := by
  rw [frameOf, BitVec.and_assoc, hmask, BitVec.and_zero]

@[simp] theorem isPresent_entryOf (frame : Word) (write user : Bool) :
    isPresent (entryOf frame write user) = true := by
  rw [isPresent, entryOf, BitVec.and_or_distrib_right, frameOf_land_low frame rfl,
    entryFlags_present]
  rfl

@[simp] theorem allowsWrite_entryOf (frame : Word) (write user : Bool) :
    allowsWrite (entryOf frame write user) = write := by
  rw [allowsWrite, entryOf, BitVec.and_or_distrib_right, frameOf_land_low frame rfl, BitVec.zero_or]
  cases write <;> cases user <;> rfl

@[simp] theorem allowsUser_entryOf (frame : Word) (write user : Bool) :
    allowsUser (entryOf frame write user) = user := by
  rw [allowsUser, entryOf, BitVec.and_or_distrib_right, frameOf_land_low frame rfl, BitVec.zero_or]
  cases write <;> cases user <;> rfl

@[simp] theorem isPresent_zero : isPresent 0#32 = false := rfl

theorem toNat_land_1023 (w : Word) : (w &&& 0x3FF).toNat = w.toNat % 1024 := by
  exact Nat.and_two_pow_sub_one_eq_mod w.toNat 10

theorem toNat_frameOf (w : Word) : (frameOf w).toNat = w.toNat / 4096 * 4096 := by
  exact @land_complement w.toNat 12 w.isLt (by omega)

theorem frameOf_eq_self_iff {w : Word} : frameOf w = w ↔ 4096 ∣ w.toNat := by
  grind [BitVec.toNat_inj, toNat_frameOf]

theorem dirIndex_val (virt : Word) : (dirIndex virt).val = virt.toNat / 2 ^ 22 % 1024 := by
  change ((virt >>> 22) &&& 0x3FF).toNat = _
  rw [toNat_land_1023, BitVec.toNat_ushiftRight, Nat.shiftRight_eq_div_pow]

theorem tblIndex_val (virt : Word) : (tblIndex virt).val = virt.toNat / 2 ^ 12 % 1024 := by
  change ((virt >>> 12) &&& 0x3FF).toNat = _
  rw [toNat_land_1023, BitVec.toNat_ushiftRight, Nat.shiftRight_eq_div_pow]

theorem pageOf_eq_iff {v w : Word} :
    pageOf v = pageOf w ↔ dirIndex v = dirIndex w ∧ tblIndex v = tblIndex w := by
  
  rw [pageOf, pageOf, ← BitVec.toNat_inj, Fin.ext_iff, Fin.ext_iff, dirIndex_val, dirIndex_val,
    tblIndex_val, tblIndex_val]
  simp only [BitVec.toNat_ushiftRight, Nat.shiftRight_eq_div_pow]
  omega

theorem toNat_pageOf (v : Word) : (pageOf v).toNat = v.toNat / 4096 := by
  rw [pageOf, BitVec.toNat_ushiftRight, Nat.shiftRight_eq_div_pow]

theorem toNat_pageOffset (v : Word) : (pageOffset v).toNat = v.toNat % 4096 := by
  exact Nat.and_two_pow_sub_one_eq_mod v.toNat 12

theorem pageOf_eq_iff_div {v w : Word} : pageOf v = pageOf w ↔ v.toNat / 4096 = w.toNat / 4096 := by
  rw [← BitVec.toNat_inj, toNat_pageOf, toNat_pageOf]

theorem toNat_or_pageOffset {frame : Word} (h : frameOf frame = frame) (v : Word) :
    (frame ||| pageOffset v).toNat = frame.toNat + v.toNat % 4096 := by
  obtain ⟨k, hk⟩ := frameOf_eq_self_iff.mp h
  rw [BitVec.toNat_or, toNat_pageOffset, hk]
  exact (Nat.two_pow_add_eq_or_of_lt (Nat.mod_lt v.toNat (by decide : 0 < 2 ^ 12)) k).symm

theorem frameOf_or_pageOffset {frame : Word} (h : frameOf frame = frame) (v : Word) :
    frameOf (frame ||| pageOffset v) = frame := by
  grind [BitVec.toNat_inj, toNat_frameOf, toNat_or_pageOffset]

-- Bytes of two frames are the same byte only at the same place in the same frame.
theorem or_pageOffset_inj {frame other : Word} {v w : Word} (h : frameOf frame = frame)
    (h' : frameOf other = other) (heq : frame ||| pageOffset v = other ||| pageOffset w) :
    frame = other ∧ v.toNat % 4096 = w.toNat % 4096 := by
  have hframe : frame = other := by
    grind [frameOf_or_pageOffset]
  refine ⟨hframe, ?_⟩
  grind [toNat_or_pageOffset]

end Wirth.Lib.X86

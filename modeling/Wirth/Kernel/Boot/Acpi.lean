import Wirth.Kernel.Boot.Multiboot
import Wirth.Lib.Text

namespace Wirth.Kernel.Boot

open Wirth.Lib

def kTagTypeAcpiOld : Nat := 14

def kTagTypeAcpiNew : Nat := 15

def sizeofAcpiOldTag : Nat := 28

def sizeofAcpiNewTag : Nat := 44

def sizeofRsdpV1 : Nat := 20

def sizeofRsdpV2 : Nat := 36

def sizeofSdtHeader : Nat := 36

def sizeofMadtHeader : Nat := 44

def sizeofMadtEntryHeader : Nat := 2

def sizeofMadtIoApicEntry : Nat := 12

structure AcpiInfo where
  found : Bool
  checksumOk : Bool
  hasXsdt : Bool
  rsdpPhys : Nat
  rsdtPhys : Nat
  xsdtPhys : Nat
  madtPhys : Nat
  localApicPhys : Nat
  ioapicCount : Nat
  ioapicPhys : Nat → Nat
  ioapicGsiBase : Nat → Nat

def AcpiInfo.zero : AcpiInfo := ⟨false, false, false, 0, 0, 0, 0, 0, 0, fun _ => 0, fun _ => 0⟩

def AcpiInfo.addIoapic (info : AcpiInfo) (address gsiBase : Nat) : AcpiInfo :=
  { info with
    ioapicPhys := Function.update info.ioapicPhys info.ioapicCount address
    ioapicGsiBase := Function.update info.ioapicGsiBase info.ioapicCount gsiBase }

def changeInfo (f : AcpiInfo → AcpiInfo) : Scan AcpiInfo Unit := fun info => ⟨(.ok (), f info), []⟩

def readInfo : Scan AcpiInfo AcpiInfo := fun info => ⟨(.ok info, info), []⟩

section Tables

variable {w : Nat} (m : Memory)

def textEqual (p : BitVec w) : Str → Scan AcpiInfo Bool
  | [] => pure true
  | c :: rest => do
      let b ← readU8 m p
      if b = c then textEqual (p + 1) rest else pure false

def checksum8 : Nat → BitVec w → UInt8 → Scan AcpiInfo UInt8
  | 0, _, sum => pure sum
  | len + 1, data, sum => do
      let b ← readU8 m data
      checksum8 len (data + 1) (sum + b)

def parseRsdp (rsdpBytes : BitVec w) (size : Nat) : Scan AcpiInfo Bool :=
  if rsdpBytes = 0 ∨ size < sizeofRsdpV1 then pure false
  else do
    let signed ← textEqual m rsdpBytes (lit "RSD PTR ")
    if signed = false then pure false
    else do
      let rsdtAddress ← readU32 m (rsdpBytes + 16)
      changeInfo fun info =>
        { info with
          found := true, rsdpPhys := rsdpBytes.toNat, rsdtPhys := rsdtAddress, hasXsdt := false, xsdtPhys := 0
          madtPhys := 0, localApicPhys := 0, ioapicCount := 0 }
      let sum ← checksum8 m sizeofRsdpV1 rsdpBytes 0
      if sizeofRsdpV2 ≤ size then do
        let xsdtAddress ← readU64 m (rsdpBytes + 24)
        let length ← readU32 m (rsdpBytes + 20)
        let sum ← checksum8 m length rsdpBytes 0
        changeInfo fun info => { info with hasXsdt := true, xsdtPhys := xsdtAddress, checksumOk := sum = 0 }
        pure true
      else do
        changeInfo fun info => { info with checksumOk := sum = 0 }
        pure true

def madtLoop (stop : BitVec w) : Nat → BitVec w → Scan AcpiInfo Unit
  | 0, _ => Job.stop ()
  | rounds + 1, cursor =>
      if cursor + uintptr w sizeofMadtEntryHeader ≤ stop then do
        let length ← readU8 m (cursor + 1)
        if length.toNat < sizeofMadtEntryHeader ∨ stop < cursor + uintptr w length.toNat then pure ()
        else do
          let type ← readU8 m cursor
          if type = 1 ∧ cursor + uintptr w sizeofMadtIoApicEntry ≤ stop then do
            let info ← readInfo
            if info.ioapicCount < 8 then do
              let address ← readU32 m (cursor + 4)
              let gsiBase ← readU32 m (cursor + 8)
              changeInfo fun info => info.addIoapic address gsiBase
            else pure ()
            changeInfo fun info => { info with ioapicCount := uint32 (info.ioapicCount + 1) }
          else pure ()
          madtLoop stop rounds (cursor + uintptr w length.toNat)
      else pure ()

def logMadt (w : Nat) (rounds madtPhys : Nat) : Scan AcpiInfo Unit :=
  let madt := uintptr w madtPhys
  if madt = 0 then pure ()
  else do
    let signed ← textEqual m madt (lit "APIC")
    if signed = false then pure ()
    else do
      let localApicAddress ← readU32 m (madt + 36)
      changeInfo fun info => { info with madtPhys := madtPhys, localApicPhys := localApicAddress }
      let total ← readU32 m (madt + 4)
      madtLoop m (madt + uintptr w total) rounds (madt + uintptr w sizeofMadtHeader)

def tableLoop (isXsdt : Bool) (rounds : Nat) (stop : BitVec w) : Nat → BitVec w → Scan AcpiInfo Unit
  | 0, _ => Job.stop ()
  | left + 1, cursor =>
      let width := if isXsdt then 8 else 4
      if cursor + uintptr w width ≤ stop then do
        let entryPhys ← if isXsdt then readU64 m cursor else readU32 m cursor
        let entryHeader := uintptr w entryPhys
        let isMadt ← if entryHeader = 0 then pure false else textEqual m entryHeader (lit "APIC")
        if isMadt then logMadt m w rounds entryPhys
        else tableLoop isXsdt rounds stop left (cursor + uintptr w width)
      else pure ()

def scanAcpiTable (w : Nat) (rounds tablePhys : Nat) (isXsdt : Bool) : Scan AcpiInfo Unit :=
  let header := uintptr w tablePhys
  if tablePhys = 0 ∨ header = 0 then pure ()
  else do
    let length ← readU32 m (header + 4)
    if length < sizeofSdtHeader then pure ()
    else do
      let sum ← checksum8 m length header 0
      if sum ≠ 0 then pure ()
      else do
        let isMadt ← textEqual m header (lit "APIC")
        if isMadt then logMadt m w rounds tablePhys
        else tableLoop m isXsdt rounds (header + uintptr w length) rounds (header + uintptr w sizeofSdtHeader)

end Tables

def IsAcpiTag (type size : Nat) : Prop :=
  type = kTagTypeAcpiOld ∧ sizeofAcpiOldTag ≤ size ∨ type = kTagTypeAcpiNew ∧ sizeofAcpiNewTag ≤ size

instance decidableIsAcpiTag (type size : Nat) : Decidable (IsAcpiTag type size) :=
  inferInstanceAs (Decidable (_ ∨ _))

section Discover

variable {w : Nat} (m : Memory)

def acpiTag (rounds : Nat) (cursor : BitVec w) (type size : Nat) (found : Bool) : Scan AcpiInfo Verdict :=
  if IsAcpiTag type size then do
    let parsed ← parseRsdp m (cursor + 8) (size - 8)
    if parsed then do
      let info ← readInfo
      scanAcpiTable m w rounds (if info.hasXsdt then info.xsdtPhys else info.rsdtPhys) info.hasXsdt
      pure (.settled true)
    else pure (.goOn found)
  else pure (.goOn found)

end Discover

def discover (w : Nat) (m : Memory) (multibootInfoAddr : UInt32) (rounds : Nat) : Scan AcpiInfo Bool := do
  changeInfo fun _ => .zero
  walkTags m (acpiTag (w := w) m rounds) rounds multibootInfoAddr

end Wirth.Kernel.Boot

import Mathlib.Algebra.GroupWithZero.Nat
import Wirth.Lib.Logged
import Wirth.Lib.Walk

namespace Wirth.Kernel.Xhci

open Wirth.Lib Wirth.Lib.Walk Wirth.Lib.Logged

def kUsbClassMassStorage : UInt8 := 0x08
def kUsbSubclassScsi : UInt8 := 0x06
def kUsbProtoBulk : UInt8 := 0x50

structure Endpoints where
  bulkInEp : UInt8
  bulkOutEp : UInt8

def Endpoints.note (found : Endpoints) (addr attrs : UInt8) : Endpoints :=
  if attrs &&& 0x3 = 2 then
    if addr &&& 0x80 ≠ 0 then { found with bulkInEp := addr &&& 0x0F }
    else { found with bulkOutEp := addr &&& 0x0F }
  else found

section Model

variable (cfg : Nat → UInt8) (total : Nat)

-- The loop that both scans are, with `none` when the rounds are used up; the body also says whether
-- there is no `break`. The events are the indices at which `cfg_buf` is read.
def walkDescriptors {α : Type} (body : Nat → α → Logged Nat (Option (Bool × α))) :
    Nat → Nat → α → Logged Nat (Option α)
  | 0, _, _ => pure none
  | rounds + 1, idx, found =>
      if idx + 1 < total then do
        Logged.tell [idx, idx + 1]
        if cfg idx = 0 then pure (some found)
        else match ← body idx found with
          | none => pure none
          | some (false, found) => pure (some found)
          | some (true, found) =>
              walkDescriptors body rounds ((idx + (cfg idx).toNat) % 2 ^ 16) found
      else pure (some found)

def endpointBody (eidx : Nat) (found : Endpoints) : Logged Nat (Option (Bool × Endpoints)) :=
  if cfg (eidx + 1) = 5 ∧ eidx + (cfg eidx).toNat ≤ total then do
    Logged.tell [eidx + 2, eidx + 3]
    pure (some (true, found.note (cfg (eidx + 2)) (cfg (eidx + 3))))
  else pure (some (decide (cfg (eidx + 1) ≠ 4), found))

def IsMassStorage (idx : Nat) : Prop :=
  cfg (idx + 5) = kUsbClassMassStorage ∧ cfg (idx + 6) = kUsbSubclassScsi ∧
    cfg (idx + 7) = kUsbProtoBulk

instance decidableIsMassStorage (idx : Nat) : Decidable (IsMassStorage cfg idx) :=
  inferInstanceAs (Decidable (_ ∧ _))

def interfaceBody (rounds idx : Nat) (found : Endpoints) : Logged Nat (Option (Bool × Endpoints)) :=
  if cfg (idx + 1) = 4 ∧ idx + (cfg idx).toNat ≤ total then do
    Logged.tell [idx + 5, idx + 6, idx + 7]
    if IsMassStorage cfg idx then do
      let found ← walkDescriptors cfg total (endpointBody cfg total) rounds
        ((idx + (cfg idx).toNat) % 2 ^ 16) found
      pure (found.map fun found => (true, found))
    else pure (some (true, found))
  else pure (some (true, found))

-- `cfg_value` and the endpoints.
def scanConfiguration (rounds : Nat) : Logged Nat (Option (UInt8 × Endpoints)) := do
  Logged.tell [5]
  let found ← walkDescriptors cfg total (interfaceBody cfg total rounds) rounds 0 ⟨0, 0⟩
  pure (found.map fun found => (cfg 5, found))

def nextDescriptor (goesOn : Nat → Bool) (idx : Nat) : Option Nat :=
  if idx + 1 < total ∧ cfg idx ≠ 0 ∧ goesOn idx then some (idx + (cfg idx).toNat) else none

-- The walk that starts there looks at the descriptor.
def ComesTo (goesOn : Nat → Bool) (start idx : Nat) : Prop :=
  Reaches (nextDescriptor cfg total goesOn) start idx ∧ idx + 1 < total ∧ cfg idx ≠ 0

-- A descriptor of this type that is complete by its own length has all of these fields.
def HasFields (type : UInt8) (fields idx : Nat) : Prop :=
  cfg (idx + 1) = type → idx + (cfg idx).toNat ≤ total → idx + fields ≤ total

def EndpointsFit (idx : Nat) : Prop :=
  cfg (idx + 1) = 4 → idx + (cfg idx).toNat ≤ total → IsMassStorage cfg idx →
    ∀ eidx, ComesTo cfg total (fun eidx => cfg (eidx + 1) ≠ 4) (idx + (cfg idx).toNat) eidx →
      HasFields cfg total 5 4 eidx

end Model

section Walk

variable {cfg : Nat → UInt8} {total idx rounds : Nat} {goesOn : Nat → Bool} {Inside : Nat → Prop}

theorem comesTo_iff {p : Nat} : ComesTo cfg total goesOn idx p ↔
    idx + 1 < total ∧ cfg idx ≠ 0 ∧
      (p = idx ∨ goesOn idx = true ∧ ComesTo cfg total goesOn (idx + (cfg idx).toNat) p) := by
  constructor
  · rintro ⟨hreach, hp⟩
    rcases hreach.cases_head with rfl | ⟨c, hc, hrest⟩
    · exact ⟨hp.1, hp.2, .inl rfl⟩
    · simp only [Leads, nextDescriptor, Option.ite_none_right_eq_some, Option.some.injEq] at hc
      obtain ⟨⟨hmore, hlen, hgoes⟩, rfl⟩ := hc
      exact ⟨hmore, hlen, .inr ⟨hgoes, hrest, hp⟩⟩
  · rintro ⟨hmore, hlen, rfl | ⟨hgoes, hreach, hp⟩⟩
    · exact ⟨.refl, hmore, hlen⟩
    · exact ⟨.head (if_pos ⟨hmore, hlen, hgoes⟩) hreach, hp⟩

variable (goesOn) in
-- Every round moves on by the length of a descriptor, which is not zero.
theorem walkDescriptors_spec {α : Type} {body : Nat → α → Logged Nat (Option (Bool × α))}
    (htotal : total ≤ 512)
    (hbody : ∀ p found, p + 1 < total → cfg p ≠ 0 →
      (∃ found', (body p found).value = some (goesOn p, found')) ∧
        ((body p found).Always (· < total) ↔ Inside p))
    (hidx : idx < 1024) (hrounds : total - idx < rounds) (found : α) :
    (∃ found', (walkDescriptors cfg total body rounds idx found).value = some found') ∧
      ((walkDescriptors cfg total body rounds idx found).Always (· < total) ↔
        ∀ p, ComesTo cfg total goesOn idx p → Inside p) := by
  induction rounds generalizing idx found with
  | zero => omega
  | succ rounds ih =>
    rw [walkDescriptors]
    by_cases hmore : idx + 1 < total
    · rw [if_pos hmore]
      by_cases hlen : cfg idx = 0
      · have hnone : ∀ p, ¬ComesTo cfg total goesOn idx p :=
          fun p hp => (comesTo_iff.mp hp).2.1 hlen
        simp [hlen, hnone]
        omega
      · obtain ⟨⟨found', hvalue⟩, hinside⟩ := hbody idx found hmore hlen
        have hpos : (cfg idx).toNat ≠ 0 := fun h => hlen (UInt8.toNat_inj.mp h)
        have hbyte := (cfg idx).toNat_lt
        have hcomes : (∀ p, ComesTo cfg total goesOn idx p → Inside p) ↔ Inside idx ∧
            (goesOn idx = true → ∀ p, ComesTo cfg total goesOn (idx + (cfg idx).toNat) p → Inside p) := by
          constructor
          · exact fun h => ⟨h idx (comesTo_iff.mpr ⟨hmore, hlen, .inl rfl⟩),
              fun hgoes p hp => h p (comesTo_iff.mpr ⟨hmore, hlen, .inr ⟨hgoes, hp⟩⟩)⟩
          · rintro ⟨hidx, hrest⟩ p hp
            rcases (comesTo_iff.mp hp).2.2 with rfl | ⟨hgoes, hp⟩
            · exact hidx
            · exact hrest hgoes p hp
        cases hgoes : goesOn idx with
        | false =>
          simp [hlen, hvalue, hgoes, hinside, hcomes]
          omega
        | true =>
          have hnext : (idx + (cfg idx).toNat) % 2 ^ 16 = idx + (cfg idx).toNat :=
            Nat.mod_eq_of_lt (by omega)
          have hplace : idx + (cfg idx).toNat < 1024 := by omega
          obtain ⟨hreturns, hreads⟩ := ih hplace (by omega) found'
          simp only [hlen, if_false, value_bind, always_bind, hvalue, hgoes, hinside, hcomes, hnext,
            hreads]
          simp
          exact ⟨hreturns, by omega⟩
    · have hnone : ∀ p, ¬ComesTo cfg total goesOn idx p :=
        fun p hp => hmore (comesTo_iff.mp hp).1
      simp [hmore, hnone]

variable (cfg)

theorem endpoints_spec (htotal : total ≤ 512) (hidx : idx < 1024) (hrounds : total < rounds)
    (found : Endpoints) :
    (∃ found', (walkDescriptors cfg total (endpointBody cfg total) rounds idx found).value = some found') ∧
      ((walkDescriptors cfg total (endpointBody cfg total) rounds idx found).Always (· < total) ↔
        ∀ p, ComesTo cfg total (fun eidx => cfg (eidx + 1) ≠ 4) idx p → HasFields cfg total 5 4 p) := by
  refine walkDescriptors_spec _ htotal (fun p found hmore _ => ?_) hidx (by omega) found
  unfold endpointBody HasFields
  by_cases h : cfg (p + 1) = 5 ∧ p + (cfg p).toNat ≤ total
  · simp [h.1, h.2]
    omega
  · rw [if_neg h]
    simp
    grind

theorem interfaceBody_spec (htotal : total ≤ 512) (hrounds : total < rounds) (idx : Nat)
    (found : Endpoints) :
    (∃ found', (interfaceBody cfg total rounds idx found).value = some (true, found')) ∧
      ((interfaceBody cfg total rounds idx found).Always (· < total) ↔
        HasFields cfg total 4 8 idx ∧ EndpointsFit cfg total idx) := by
  unfold interfaceBody HasFields EndpointsFit
  by_cases h : cfg (idx + 1) = 4 ∧ idx + (cfg idx).toNat ≤ total
  · by_cases hclass : IsMassStorage cfg idx
    · have hnext : (idx + (cfg idx).toNat) % 2 ^ 16 = idx + (cfg idx).toNat :=
        Nat.mod_eq_of_lt (by omega)
      have hplace : idx + (cfg idx).toNat < 1024 := by omega
      obtain ⟨⟨found', hvalue⟩, hinside⟩ := endpoints_spec cfg htotal hplace hrounds found
      rw [if_pos h, if_pos hclass, hnext]
      simp only [value_bind, always_bind, always_tell, always_pure, hvalue, hinside, h.1, h.2, hclass,
        forall_const]
      simp
      omega
    · simp [h.1, h.2, hclass]
      omega
  · rw [if_neg h]
    simp
    grind

end Walk

-- The walk always ends, and it stays inside the reply if the interfaces and the endpoints that it
-- looks at are not shorter than what is read of them.
theorem scan_inside_iff (cfg : Nat → UInt8) {total : Nat} (hlow : 9 ≤ total) (hhigh : total ≤ 512) :
    ∃ n, ∀ rounds, n ≤ rounds → (scanConfiguration cfg total rounds).value.isSome ∧
      ((scanConfiguration cfg total rounds).Always (· < total) ↔
        ∀ idx, ComesTo cfg total (fun _ => true) 0 idx →
          HasFields cfg total 4 8 idx ∧ EndpointsFit cfg total idx) := by
  refine ⟨total + 1, fun rounds hrounds => ?_⟩
  have hbody := fun p found (_ : p + 1 < total) (_ : cfg p ≠ 0) =>
    interfaceBody_spec cfg hhigh hrounds p found
  have hrounds' : total - 0 < rounds := by omega
  obtain ⟨⟨found, hfound⟩, hreads⟩ :=
    walkDescriptors_spec (fun _ => true) hhigh hbody (by decide) hrounds' ⟨0, 0⟩
  rw [scanConfiguration]
  simp only [value_bind, always_bind, always_tell, always_pure, hfound, hreads]
  simp
  omega

-- A configuration, a mass storage interface and two bulk endpoints.
def diskReply : List UInt8 :=
  [9, 2, 32, 0, 1, 1, 0, 0x80, 50, 9, 4, 0, 0, 2, 8, 6, 0x50, 0,
    7, 5, 0x81, 2, 0, 2, 0, 7, 5, 2, 2, 0, 2, 0]

theorem scan_inside_disk : ∃ n, ∀ rounds, n ≤ rounds →
    (scanConfiguration (diskReply.getD · 0) 32 rounds).value.isSome ∧
      ((scanConfiguration (diskReply.getD · 0) 32 rounds).Always (· < 32) ↔
        ∀ idx, ComesTo (diskReply.getD · 0) 32 (fun _ => true) 0 idx →
          HasFields (diskReply.getD · 0) 32 4 8 idx ∧ EndpointsFit (diskReply.getD · 0) 32 idx) :=
  scan_inside_iff (diskReply.getD · 0) (by decide) (by decide)

-- A reply of eleven bytes that ends with an interface of length two: three bytes behind it are read.
def shortReply : List UInt8 := [9, 2, 11, 0, 1, 1, 0, 0x80, 50, 2, 4]

theorem short_interface_outside : (scanConfiguration (shortReply.getD · 0) 11 12).value.isSome ∧
    16 ∈ (scanConfiguration (shortReply.getD · 0) 11 12).events := by
  decide

end Wirth.Kernel.Xhci

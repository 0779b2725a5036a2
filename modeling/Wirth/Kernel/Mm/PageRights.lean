import Wirth.Kernel.Mm.AddressSpaces

namespace Wirth.Kernel.Mm

open Wirth.Lib.X86

namespace Vmm

-- Both levels have to allow it.

def writable (s : Vmm) (virt : Word) : Bool :=
  allowsWrite (s.kernelPageDirectory (dirIndex virt)) && allowsWrite (s.entry virt)

def userAccessible (s : Vmm) (virt : Word) : Bool :=
  allowsUser (s.kernelPageDirectory (dirIndex virt)) && allowsUser (s.entry virt)

def Succeeds (s : Vmm) : List PageCall → Prop
  | [] => True
  | c :: rest => (s.call c).1 = true ∧ (s.call c).2.Succeeds rest

-- The rights that the first `map_page` in a slot of the directory asks for.
def firstAsked (d : Fin 1024) : List PageCall → Option (Bool × Bool)
  | [] => none
  | .map virt _ write user :: rest =>
      if dirIndex virt = d then some (write, user) else firstAsked d rest
  | .unmap _ :: rest => firstAsked d rest

-- What a record of successful calls, the first one first, says about both levels.
structure Granted (s : Vmm) (calls : List PageCall) : Prop where
  recorded : Recorded s calls.reverse
  unasked : ∀ d, firstAsked d calls = none → s.tableForDir d = invalidTableIndex
  directory : ∀ d write user, firstAsked d calls = some (write, user) →
    s.tableForDir d ≠ invalidTableIndex ∧
      ∃ table, s.kernelPageDirectory d = entryOf table write user
  entries : ∀ virt at' phys write user,
    lastOn virt calls.reverse = some (.map at' phys write user) →
      s.entry virt = entryOf phys write user

section Lists

variable {d : Fin 1024} {calls : List PageCall}

theorem firstAsked_append (d : Fin 1024) (calls rest : List PageCall) :
    firstAsked d (calls ++ rest) = (firstAsked d calls).or (firstAsked d rest) := by
  induction calls with
  | nil => rfl
  | cons c calls ih =>
    cases c with
    | map virt phys write user =>
      rw [List.cons_append, firstAsked, firstAsked, ih]
      grind
    | unmap virt => exact ih

variable {virt at' phys : Word} {write user : Bool}

theorem firstAsked_of_mem
    (h : .map virt phys write user ∈ calls) :
    ∃ rights, firstAsked (dirIndex virt) calls = some rights := by
  induction calls with
  | nil => cases h
  | cons c calls ih =>
    rcases List.mem_cons.mp h with rfl | hrest
    · exact ⟨_, if_pos rfl⟩
    obtain ⟨rights, hrights⟩ := ih hrest
    cases c with
    | map virt' phys' write' user' =>
      rw [firstAsked]
      grind
    | unmap virt' => exact ⟨rights, hrights⟩

theorem lastOn_concat (virt : Word) (c : PageCall) (calls : List PageCall) :
    lastOn virt (calls ++ [c]).reverse =
      if pageOf c.virt = pageOf virt then some c else lastOn virt calls.reverse := by
  by_cases hpage : pageOf c.virt = pageOf virt
  · simp [lastOn, hpage]
  simp [lastOn, hpage]

theorem lastOn_append (virt : Word) (calls rest : List PageCall) :
    lastOn virt (calls ++ rest).reverse = (lastOn virt rest.reverse).or (lastOn virt calls.reverse) := by
  rw [List.reverse_append, lastOn, List.find?_append]
  rfl

theorem lastOn_some
    (h : lastOn virt calls.reverse = some (.map at' phys write user)) :
    pageOf at' = pageOf virt ∧ .map at' phys write user ∈ calls := by
  have hpage := List.find?_some h
  exact ⟨of_decide_eq_true hpage, List.mem_reverse.mp (List.mem_of_find?_eq_some h)⟩

theorem firstAsked_of_lastOn
    (h : lastOn virt calls.reverse = some (.map at' phys write user)) :
    ∃ rights, firstAsked (dirIndex virt) calls = some rights := by
  obtain ⟨hpage, hmem⟩ := lastOn_some h
  obtain ⟨rights, hrights⟩ := firstAsked_of_mem hmem
  rw [(pageOf_eq_iff.mp hpage).1] at hrights
  exact ⟨rights, hrights⟩

end Lists

section Steps

variable {s : Vmm} {calls : List PageCall}

structure Mapped (s : Vmm) (virt phys : Word) (write user : Bool) (t : Vmm) : Prop where
  slot : t.tableForDir (dirIndex virt) ≠ invalidTableIndex
  filled : s.tableForDir (dirIndex virt) = invalidTableIndex →
    ∃ table, t.kernelPageDirectory (dirIndex virt) = entryOf table write user
  kept : s.tableForDir (dirIndex virt) ≠ invalidTableIndex →
    t.kernelPageDirectory (dirIndex virt) = s.kernelPageDirectory (dirIndex virt)
  others : ∀ d, d ≠ dirIndex virt →
    t.tableForDir d = s.tableForDir d ∧ t.kernelPageDirectory d = s.kernelPageDirectory d
  page : ∀ v, pageOf virt = pageOf v → t.entry v = entryOf phys write user
  pages : ∀ v, pageOf virt ≠ pageOf v → s.tableForDir (dirIndex v) ≠ invalidTableIndex →
    t.entry v = s.entry v

theorem mapPage_mapped (hs : s.Sound) {virt phys : Word} {write user : Bool}
    (hdone : (s.mapPage virt phys write user).1 = true) :
    Mapped s virt phys write user (s.mapPage virt phys write user).2 := by
  obtain ⟨_, _, heq⟩ | ⟨t, habsent, hadd, heq⟩ | ⟨hvalid, heq⟩ :=
    mapPage_cases s virt phys write user
  · rw [heq] at hdone
    cases hdone
  · have hentry := @setEntry_entry t virt (entryOf phys write user) (hs.addTable habsent hadd)
      (addTable_valid hadd)
    have hvalid := addTable_valid hadd
    rw [heq]
    refine ⟨hvalid, fun _ => ?_, fun hslot => absurd habsent hslot, fun d hd => ?_,
      fun v hv => ?_, fun v hv hslot => ?_⟩
    · obtain ⟨_, rfl⟩ := addTable_eq_some hadd
      exact ⟨_, Function.update_self _ _ _⟩
    · obtain ⟨_, rfl⟩ := addTable_eq_some hadd
      exact ⟨Function.update_of_ne hd _ _, Function.update_of_ne hd _ _⟩
    · rw [hentry, if_pos hv]
    · rw [hentry, if_neg hv]
      have hne : dirIndex v ≠ dirIndex virt := fun heq => hslot (heq ▸ habsent)
      obtain ⟨hroom, rfl⟩ := addTable_eq_some hadd
      unfold entry
      simp only [Function.update_of_ne hne, Function.update_of_ne (hs.fresh hroom (dirIndex v))]
  · have hentry := @setEntry_entry s virt (entryOf phys write user) hs hvalid
    rw [heq]
    refine ⟨hvalid, fun habsent => absurd habsent hvalid, fun _ => rfl, fun _ _ => ⟨rfl, rfl⟩,
      fun v hv => ?_, fun v hv _ => ?_⟩
    · rw [hentry, if_pos hv]
    · rw [hentry, if_neg hv]

theorem Granted.cleared (s : Vmm) : Granted s.cleared [] :=
  ⟨Recorded.cleared s, fun _ _ => rfl, nofun, nofun⟩

theorem Granted.slot_valid (h : Granted s calls) {virt at' phys : Word} {write user : Bool}
    (hlast : lastOn virt calls.reverse = some (.map at' phys write user)) :
    s.tableForDir (dirIndex virt) ≠ invalidTableIndex := by
  obtain ⟨rights, hrights⟩ := firstAsked_of_lastOn hlast
  exact (h.directory _ rights.1 rights.2 hrights).1

theorem Granted.recorded_call (h : Granted s calls) {c : PageCall} (hdone : (s.call c).1 = true) :
    Recorded (s.call c).2 (calls ++ [c]).reverse := by
  have hrecorded := h.recorded.recorded c
  simp only [Vmm.recorded, hdone, if_true] at hrecorded
  rw [List.reverse_append]
  exact hrecorded

theorem Granted.map (h : Granted s calls) {virt phys : Word} {write user : Bool}
    (hdone : (s.call (.map virt phys write user)).1 = true) :
    Granted (s.call (.map virt phys write user)).2 (calls ++ [.map virt phys write user]) := by
  have hmapped : Mapped s virt phys write user (s.call (.map virt phys write user)).2 :=
    mapPage_mapped h.recorded.sound hdone
  have hfirst : ∀ d, firstAsked d (calls ++ [.map virt phys write user]) =
      (firstAsked d calls).or (if dirIndex virt = d then some (write, user) else none) :=
    fun d => firstAsked_append d calls _
  refine ⟨h.recorded_call hdone, ?_, ?_, ?_⟩
  · intro d hd
    rw [hfirst] at hd
    obtain ⟨hold, hnew⟩ := Option.or_eq_none_iff.mp hd
    by_cases hslot : dirIndex virt = d
    · rw [if_pos hslot] at hnew
      cases hnew
    · rw [(hmapped.others d (Ne.symm hslot)).1]
      exact h.unasked d hold
  · intro d w u hd
    rw [hfirst] at hd
    by_cases hslot : dirIndex virt = d
    · subst hslot
      refine ⟨hmapped.slot, ?_⟩
      cases hold : firstAsked (dirIndex virt) calls with
      | none =>
        rw [hold, if_pos rfl] at hd
        cases hd
        exact hmapped.filled (h.unasked _ hold)
      | some rights =>
        rw [hold] at hd
        cases hd
        obtain ⟨hvalid, htable⟩ := h.directory _ w u hold
        rw [hmapped.kept hvalid]
        exact htable
    · rw [if_neg hslot, Option.or_none] at hd
      obtain ⟨htable, hdirectory⟩ := hmapped.others d (Ne.symm hslot)
      rw [htable, hdirectory]
      exact h.directory d w u hd
  · intro v at' p w u hv
    rw [lastOn_concat] at hv
    split_ifs at hv with hpage
    · cases hv
      exact hmapped.page v hpage
    · rw [hmapped.pages v hpage (h.slot_valid hv)]
      exact h.entries v at' p w u hv

theorem Granted.unmap (h : Granted s calls) {virt : Word} (hdone : (s.call (.unmap virt)).1 = true) :
    Granted (s.call (.unmap virt)).2 (calls ++ [.unmap virt]) := by
  have hrecorded := h.recorded_call hdone
  have hfirst : ∀ d, firstAsked d (calls ++ [.unmap virt]) = firstAsked d calls := by
    intro d
    rw [firstAsked_append]
    exact Option.or_none
  rw [call] at hdone hrecorded ⊢
  obtain heq | ⟨hvalid, heq⟩ := unmapPage_cases s virt
  · rw [heq] at hdone
    cases hdone
  rw [heq] at hrecorded ⊢
  refine ⟨hrecorded, fun d hd => h.unasked d ((hfirst d).symm.trans hd),
    fun d w u hd => h.directory d w u ((hfirst d).symm.trans hd), ?_⟩
  intro v at' p w u hv
  rw [lastOn_concat] at hv
  split_ifs at hv with hpage
  · cases hv
  · rw [setEntry_entry h.recorded.sound hvalid]
    exact (if_neg hpage).trans (h.entries v at' p w u hv)

theorem Granted.run (h : Granted s calls) {rest : List PageCall} (hdone : s.Succeeds rest) :
    Granted (s.run rest) (calls ++ rest) := by
  induction rest generalizing s calls with
  | nil =>
    rw [List.append_nil]
    exact h
  | cons c rest ih =>
    obtain ⟨hfirst, hrest⟩ := hdone
    have hstep : Granted (s.call c).2 (calls ++ [c]) := by
      cases c with
      | map virt phys write user => exact h.map hfirst
      | unmap virt => exact h.unmap hfirst
    have hrun := ih hstep hrest
    rw [List.append_assoc] at hrun
    exact hrun

end Steps

section Identity

open Spaces

theorem succeeds_append {s : Vmm} {calls rest : List PageCall} :
    s.Succeeds (calls ++ rest) ↔ s.Succeeds calls ∧ (s.run calls).Succeeds rest := by
  induction calls generalizing s with
  | nil => exact (and_iff_right trivial).symm
  | cons c calls ih =>
    rw [List.cons_append, Succeeds, Succeeds, ih, and_assoc]
    rfl

theorem succeeds_of_low {s : Vmm} (h : Counted kMaxTables s) {calls : List PageCall}
    (hlow : ∀ c ∈ calls, ∃ virt phys write user, c = .map virt phys write user ∧
      (dirIndex virt).val < kMaxTables) : s.Succeeds calls := by
  induction calls generalizing s with
  | nil => trivial
  | cons c calls ih =>
    obtain ⟨⟨virt, phys, write, user, rfl, hdir⟩, hrest⟩ := List.forall_mem_cons.mp hlow
    refine ⟨?_, ih (h.mapPage hdir) hrest⟩
    by_contra hfail
    obtain ⟨habsent, hfull⟩ := mapPage_false_iff.mp (Bool.eq_false_iff.mpr hfail)
    -- The slot of the page is low and has no table, so fewer than 64 slots have one.
    have hsub : (insert (dirIndex virt) (slots s)).card ≤ (Finset.range kMaxTables).card := by
      apply Finset.card_le_card_of_injOn (fun d => d.val)
      · intro d hd
        rw [Finset.mem_coe, Finset.mem_range]
        rcases Finset.mem_insert.mp hd with rfl | hold
        · exact hdir
        · exact h.2 d hold
      · exact fun _ _ _ _ hde => Fin.ext hde
    have hnew : dirIndex virt ∉ slots s := by simp [slots, habsent]
    rw [Finset.card_insert_of_notMem hnew, Finset.card_range] at hsub
    have hcount := h.1
    omega

theorem counted_cleared (k : Nat) (s : Vmm) : Counted k s.cleared := by
  refine ⟨Nat.zero_le _, ?_⟩
  intro d hd
  simp [slots, Vmm.cleared] at hd

theorem identity_low {c : PageCall} (hc : c ∈ identityCalls) :
    ∃ virt phys write user, c = .map virt phys write user ∧ (dirIndex virt).val < kMaxTables := by
  obtain ⟨addr, haddr, rfl⟩ := List.mem_map.mp hc
  exact ⟨addr, addr, true, false, rfl, (dirIndex_identity haddr).trans (by decide)⟩

theorem granted_run (s : Vmm) {calls : List PageCall} (hdone : s.init.Succeeds calls) :
    Granted (s.init.run calls) (identityCalls ++ calls) := by
  have hidentity := succeeds_of_low (counted_cleared kMaxTables s) fun _ => identity_low
  have hinit := (Granted.cleared s).run hidentity
  rw [← init_eq_run, List.nil_append] at hinit
  exact hinit.run hdone

theorem firstAsked_of_all {rights : Bool × Bool} {d : Fin 1024} {addrs : List Word}
    (hd : ∃ addr ∈ addrs, dirIndex addr = d) :
    firstAsked d (addrs.map fun addr => .map addr addr rights.1 rights.2) = some rights := by
  induction addrs with
  | nil =>
    obtain ⟨_, hmem, _⟩ := hd
    cases hmem
  | cons addr addrs ih =>
    rw [List.map_cons, firstAsked]
    by_cases hslot : dirIndex addr = d
    · rw [if_pos hslot]
    grind

theorem firstAsked_identity {d : Fin 1024} (hd : d.val < 16) :
    firstAsked d identityCalls = some (true, false) := by
  apply @firstAsked_of_all (true, false)
  refine ⟨BitVec.ofNat 32 (4096 * (1024 * d.val)), ?_, ?_⟩
  · unfold identityAddresses
    exact List.mem_map.mpr ⟨1024 * d.val, List.mem_range.mpr (by omega), rfl⟩
  · rw [Fin.ext_iff, dirIndex_val, BitVec.toNat_ofNat]
    omega

theorem firstAsked_identity_high {d : Fin 1024} (hd : 16 ≤ d.val) :
    firstAsked d identityCalls = none := by
  have hlow : ∀ addrs : List Word, (∀ addr ∈ addrs, (dirIndex addr).val < 16) →
      firstAsked d (addrs.map fun addr => .map addr addr true false) = none := by
    intro addrs haddrs
    induction addrs with
    | nil => rfl
    | cons addr addrs ih =>
      obtain ⟨hfirst, hrest⟩ := List.forall_mem_cons.mp haddrs
      rw [List.map_cons, firstAsked, if_neg fun heq => by omega]
      exact ih hrest
  exact hlow identityAddresses fun _ => dirIndex_identity

theorem lastOn_identity {virt at' phys : Word} {write user : Bool}
    (h : lastOn virt identityCalls.reverse = some (.map at' phys write user)) :
    (dirIndex virt).val < 16 ∧ write = true ∧ user = false := by
  obtain ⟨hpage, hmem⟩ := lastOn_some h
  obtain ⟨addr, haddr, heq⟩ := List.mem_map.mp hmem
  cases heq
  rw [← (pageOf_eq_iff.mp hpage).1]
  exact ⟨dirIndex_identity haddr, rfl, rfl⟩

-- The rights of a slot: below 64 MiB `init` sets them, elsewhere the first `map_page` in the slot.
def slotRights (calls : List PageCall) (d : Fin 1024) : Option (Bool × Bool) :=
  if d.val < 16 then some (true, false) else firstAsked d calls

theorem firstAsked_after_init (calls : List PageCall) (d : Fin 1024) :
    firstAsked d (identityCalls ++ calls) = slotRights calls d := by
  rw [firstAsked_append, slotRights]
  by_cases hd : d.val < 16
  · rw [if_pos hd, firstAsked_identity hd]
    rfl
  · rw [if_neg hd, firstAsked_identity_high (not_lt.mp hd)]
    rfl

end Identity

section Rights

variable {s : Vmm} {calls : List PageCall}

def RightsKept (s : Vmm) (calls : List PageCall) : Prop :=
  ∀ virt, s.present virt → ∃ at' phys write user,
    lastOn virt calls.reverse = some (.map at' phys write user) ∧
      s.writable virt = write ∧ s.userAccessible virt = user

-- The last `map_page` of a page asks for nothing that its slot does not grant.
def WithinSlots (calls : List PageCall) : Prop :=
  ∀ virt at' phys write user, lastOn virt calls.reverse = some (.map at' phys write user) →
    ∃ slotWrite slotUser, slotRights calls (dirIndex virt) = some (slotWrite, slotUser) ∧
      (write = true → slotWrite = true) ∧ (user = true → slotUser = true)

theorem Granted.rights (h : Granted s calls) {virt at' phys : Word}
    {write user slotWrite slotUser : Bool}
    (hlast : lastOn virt calls.reverse = some (.map at' phys write user))
    (hslot : firstAsked (dirIndex virt) calls = some (slotWrite, slotUser)) :
    s.writable virt = (slotWrite && write) ∧ s.userAccessible virt = (slotUser && user) := by
  obtain ⟨_, table, htable⟩ := h.directory _ slotWrite slotUser hslot
  rw [writable, userAccessible, htable, h.entries virt at' phys write user hlast]
  simp

-- Rights are shared by the pages of a slot: a page has what it asked for exactly when its slot
-- was made for a page that asked for as much.
theorem page_rights_iff (s : Vmm) {calls : List PageCall} (hdone : s.init.Succeeds calls) :
    RightsKept (s.init.run calls) (identityCalls ++ calls) ↔ WithinSlots calls := by
  have h := granted_run s hdone
  constructor
  · intro hkept virt at' phys write user hlast
    have hall : lastOn virt (identityCalls ++ calls).reverse = some (.map at' phys write user) := by
      rw [lastOn_append, hlast]
      rfl
    obtain ⟨⟨slotWrite, slotUser⟩, hslot⟩ := firstAsked_of_lastOn hall
    obtain ⟨hwrite, huser⟩ := h.rights hall hslot
    obtain ⟨_, _, write', user', hlast', hwrite', huser'⟩ :=
      hkept virt ((h.recorded.present_iff virt).mpr ⟨at', phys, write, user, hall⟩)
    cases hall.symm.trans hlast'
    rw [hwrite, Bool.and_eq_right_iff_imp] at hwrite'
    rw [huser, Bool.and_eq_right_iff_imp] at huser'
    rw [firstAsked_after_init] at hslot
    exact ⟨slotWrite, slotUser, hslot, hwrite', huser'⟩
  · intro hwithin virt hpresent
    obtain ⟨at', phys, write, user, hall⟩ := (h.recorded.present_iff virt).mp hpresent
    have hslots : ∃ slotWrite slotUser,
        slotRights calls (dirIndex virt) = some (slotWrite, slotUser) ∧
        (write = true → slotWrite = true) ∧ (user = true → slotUser = true) := by
      have hsplit := hall
      rw [lastOn_append] at hsplit
      rcases Option.or_eq_some_iff.mp hsplit with hlast | ⟨_, hidentity⟩
      · exact hwithin virt at' phys write user hlast
      · obtain ⟨hdir, rfl, rfl⟩ := lastOn_identity hidentity
        exact ⟨true, false, if_pos hdir, id, id⟩
    obtain ⟨slotWrite, slotUser, hslot, hwrite, huser⟩ := hslots
    rw [← firstAsked_after_init] at hslot
    obtain ⟨hwritable, haccessible⟩ := h.rights hall hslot
    refine ⟨at', phys, write, user, hall, ?_, ?_⟩
    · rw [hwritable, Bool.and_eq_right_iff_imp]
      exact hwrite
    · rw [haccessible, Bool.and_eq_right_iff_imp]
      exact huser

open Spaces

theorem succeeds_after_init (s : Vmm) {calls : List PageCall}
    (hlow : ∀ c ∈ calls, ∃ virt phys write user, c = .map virt phys write user ∧
      (dirIndex virt).val < kMaxTables) : s.init.Succeeds calls := by
  have hall := @succeeds_of_low s.cleared (counted_cleared kMaxTables s) (identityCalls ++ calls)
    fun c hc => (List.mem_append.mp hc).elim identity_low (hlow c)
  rw [init_eq_run]
  exact (succeeds_append.mp hall).2

def dataThenText : List PageCall :=
  [.map 0x08000000 0x00500000 true true, .map 0x08001000 0x00501000 false true]

theorem rights_data_then_text :
    RightsKept (blankVmm.init.run dataThenText) (identityCalls ++ dataThenText) := by
  have hdone : blankVmm.init.Succeeds dataThenText := by
    apply succeeds_after_init
    simp only [dataThenText, List.forall_mem_cons]
    exact ⟨⟨_, _, _, _, rfl, by decide⟩, ⟨_, _, _, _, rfl, by decide⟩, by simp⟩
  refine (page_rights_iff blankVmm hdone).mpr fun virt at' phys write user hlast => ?_
  refine ⟨true, true, ?_, fun _ => rfl, fun _ => rfl⟩
  obtain ⟨rights, hrights⟩ := firstAsked_of_lastOn hlast
  have hdir : dirIndex virt = dirIndex 0x08000000 := by
    by_contra hne
    have hnone : firstAsked (dirIndex virt) dataThenText = none := by
      have hsame : dirIndex 0x08001000 = dirIndex 0x08000000 := by decide
      simp only [dataThenText, firstAsked]
      rw [hsame, if_neg (Ne.symm hne), if_neg (Ne.symm hne)]
    rw [hnone] at hrights
    cases hrights
  rw [hdir]
  decide

def textThenData : List PageCall :=
  [.map 0x08000000 0x00500000 false true, .map 0x08001000 0x00501000 true true]

theorem data_not_writable :
    blankVmm.init.Succeeds textThenData ∧
      (blankVmm.init.run textThenData).present 0x08001000 ∧
      lastOn 0x08001000 (identityCalls ++ textThenData).reverse =
        some (.map 0x08001000 0x00501000 true true) ∧
      (blankVmm.init.run textThenData).writable 0x08001000 = false := by
  have hdone : blankVmm.init.Succeeds textThenData := by
    apply succeeds_after_init
    simp only [textThenData, List.forall_mem_cons]
    exact ⟨⟨_, _, _, _, rfl, by decide⟩, ⟨_, _, _, _, rfl, by decide⟩, by simp⟩
  have h := granted_run blankVmm hdone
  have hlast : lastOn 0x08001000 (identityCalls ++ textThenData).reverse =
      some (.map 0x08001000 0x00501000 true true) := by
    rw [lastOn_append]
    rfl
  have hslot : firstAsked (dirIndex 0x08001000) (identityCalls ++ textThenData) =
      some (false, true) := by
    rw [firstAsked_after_init]
    decide
  exact ⟨hdone, (h.recorded.present_iff _).mpr ⟨_, _, _, _, hlast⟩, hlast, (h.rights hlast hslot).1⟩

end Rights

end Vmm

end Wirth.Kernel.Mm

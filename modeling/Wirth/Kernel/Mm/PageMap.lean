import Wirth.Kernel.Mm.Vmm

namespace Wirth.Kernel.Mm

open Wirth.Lib.X86

inductive PageCall where
  | map (virt phys : Word) (write user : Bool)
  | unmap (virt : Word)

namespace PageCall

def virt : PageCall → Word
  | map virt _ _ _ => virt
  | unmap virt => virt

def target : PageCall → Option Word
  | map _ phys _ _ => some (frameOf phys)
  | unmap _ => none

end PageCall

namespace Vmm

def call (s : Vmm) : PageCall → Bool × Vmm
  | .map virt phys write user => s.mapPage virt phys write user
  | .unmap virt => s.unmapPage virt

def present (s : Vmm) (virt : Word) : Prop :=
  s.tableForDir (dirIndex virt) ≠ invalidTableIndex ∧ isPresent (s.entry virt) = true

def lookup (s : Vmm) (virt : Word) : Option Word :=
  if s.tableForDir (dirIndex virt) = invalidTableIndex then none
  else if isPresent (s.entry virt) then some (frameOf (s.entry virt)) else none

-- The state after a sequence of calls, with those that succeeded, the last one first.
def recorded (x : Vmm × List PageCall) (c : PageCall) : Vmm × List PageCall :=
  ((x.1.call c).2, if (x.1.call c).1 then c :: x.2 else x.2)

def history (s : Vmm) (calls : List PageCall) : Vmm × List PageCall :=
  calls.foldl recorded (s, [])

def run (s : Vmm) (calls : List PageCall) : Vmm := calls.foldl (fun s c => (s.call c).2) s

def identityCalls : List PageCall := identityAddresses.map fun addr => .map addr addr true false

def lastOn (virt : Word) (log : List PageCall) : Option PageCall :=
  log.find? fun c => pageOf c.virt = pageOf virt

-- Slots have tables of their own, and the directory points to them.
structure Sound (s : Vmm) : Prop where
  below : ∀ d, s.tableForDir d ≠ invalidTableIndex → s.tableForDir d < s.tablesInUse
  limit : s.tablesInUse ≤ kMaxTables
  distinct : ∀ d e, s.tableForDir d ≠ invalidTableIndex → s.tableForDir d = s.tableForDir e → d = e
  absent : ∀ d, s.tableForDir d = invalidTableIndex → s.kernelPageDirectory d = 0
  linked : ∀ d, s.tableForDir d ≠ invalidTableIndex →
    ∃ write user, s.kernelPageDirectory d = entryOf (s.pool.table (s.tableForDir d)) write user

section Steps

variable {s t : Vmm} {virt phys : Word} {write user : Bool}

theorem present_iff : s.present virt ↔ ∃ frame, s.lookup virt = some frame := by
  simp [present, lookup]

theorem virtToPhys_of_lookup {frame : Word} (h : s.lookup virt = some frame) :
    s.virtToPhys virt = frame ||| pageOffset virt := by
  grind [lookup, virtToPhys]

theorem virtToPhys_congr (h : t.lookup virt = s.lookup virt) : t.virtToPhys virt = s.virtToPhys virt := by
  have hnone : ∀ u : Vmm, u.lookup virt = none → u.virtToPhys virt = 0 := by
    intro u hu
    unfold lookup at hu
    unfold virtToPhys
    split_ifs at hu ⊢ <;> rfl
  cases hs : s.lookup virt with
  | none => rw [hnone s hs, hnone t (h.trans hs)]
  | some frame => rw [virtToPhys_of_lookup hs, virtToPhys_of_lookup (h.trans hs)]

theorem addTable_eq_some {d : Fin 1024} (h : s.addTable d write user = some t) :
    s.tablesInUse < kMaxTables ∧ t = { s with
      pageTables := Function.update s.pageTables s.tablesInUse fun _ => 0
      tablesInUse := s.tablesInUse + 1
      tableForDir := Function.update s.tableForDir d s.tablesInUse
      kernelPageDirectory := Function.update s.kernelPageDirectory d
        (entryOf (s.pool.table s.tablesInUse) write user) } := by
  unfold addTable allocPageTable at h
  by_cases hfull : kMaxTables ≤ s.tablesInUse
  · simp [hfull] at h
  · simp only [hfull, if_false, Option.some.injEq] at h
    exact ⟨Nat.lt_of_not_le hfull, h.symm⟩

theorem addTable_eq_none {d : Fin 1024} :
    s.addTable d write user = none ↔ kMaxTables ≤ s.tablesInUse := by
  grind [addTable, allocPageTable]

theorem Sound.cleared (s : Vmm) : s.cleared.Sound where
  below := fun _ h => absurd rfl h
  limit := Nat.zero_le _
  distinct := fun _ _ h => absurd rfl h
  absent := fun _ _ => rfl
  linked := fun _ h => absurd rfl h

theorem Sound.fresh (hs : s.Sound) (hroom : s.tablesInUse < kMaxTables) (d : Fin 1024) :
    s.tableForDir d ≠ s.tablesInUse := by
  intro h
  have hvalid : s.tableForDir d ≠ invalidTableIndex := by
    unfold kMaxTables at hroom
    unfold invalidTableIndex
    omega
  have := hs.below d hvalid
  omega

theorem Sound.addTable {d : Fin 1024} (hs : s.Sound) (hd : s.tableForDir d = invalidTableIndex)
    (h : s.addTable d write user = some t) : t.Sound := by
  obtain ⟨hroom, rfl⟩ := addTable_eq_some h
  have hfresh := hs.fresh hroom
  constructor
  · intro e he
    by_cases hed : e = d
    · subst hed
      simp
    · simp only [Function.update_of_ne hed] at he ⊢
      exact Nat.lt_succ_of_lt (hs.below e he)
  · exact hroom
  · intro e f he hef
    by_cases hed : e = d
    · grind
    · by_cases hfd : f = d
      · grind
      · simp only [Function.update_of_ne hed, Function.update_of_ne hfd] at he hef
        exact hs.distinct e f he hef
  · intro e he
    by_cases hed : e = d
    · grind
    · simp only [Function.update_of_ne hed] at he ⊢
      exact hs.absent e he
  · intro e he
    by_cases hed : e = d
    · subst hed
      exact ⟨write, user, by simp⟩
    · simp only [Function.update_of_ne hed] at he ⊢
      exact hs.linked e he

theorem Sound.setEntry {entry : Word} (hs : s.Sound) : (s.setEntry virt entry).Sound :=
  ⟨hs.below, hs.limit, hs.distinct, hs.absent, hs.linked⟩

theorem addTable_lookup {d : Fin 1024} (hs : s.Sound) (hd : s.tableForDir d = invalidTableIndex)
    (h : s.addTable d write user = some t) (v : Word) : t.lookup v = s.lookup v := by
  obtain ⟨hroom, rfl⟩ := addTable_eq_some h
  unfold lookup entry
  by_cases hv : dirIndex v = d
  · rw [hv]
    simp [hd]
  · simp only [Function.update_of_ne hv, Function.update_of_ne (hs.fresh hroom (dirIndex v))]

theorem addTable_valid {d : Fin 1024} (h : s.addTable d write user = some t) :
    t.tableForDir d ≠ invalidTableIndex := by
  obtain ⟨hroom, rfl⟩ := addTable_eq_some h
  grind [kMaxTables, invalidTableIndex]

theorem setEntry_entry {entry : Word} (hs : s.Sound)
    (hvalid : s.tableForDir (dirIndex virt) ≠ invalidTableIndex) (v : Word) :
    (s.setEntry virt entry).entry v = if pageOf virt = pageOf v then entry else s.entry v := by
  by_cases hdir : dirIndex virt = dirIndex v
  · by_cases htbl : tblIndex virt = tblIndex v
    · rw [if_pos (pageOf_eq_iff.mpr ⟨hdir, htbl⟩)]
      simp [Vmm.entry, setEntry, ← hdir, ← htbl]
    · rw [if_neg fun h => htbl (pageOf_eq_iff.mp h).2]
      simp [Vmm.entry, setEntry, ← hdir, Function.update_of_ne (Ne.symm htbl)]
  · rw [if_neg fun h => hdir (pageOf_eq_iff.mp h).1]
    have hother : s.tableForDir (dirIndex v) ≠ s.tableForDir (dirIndex virt) :=
      fun h => hdir (hs.distinct _ _ hvalid h.symm)
    unfold Vmm.entry setEntry
    simp only [Function.update_of_ne hother]

theorem setEntry_lookup {entry : Word} (hs : s.Sound)
    (hvalid : s.tableForDir (dirIndex virt) ≠ invalidTableIndex) (v : Word) :
    (s.setEntry virt entry).lookup v =
      if pageOf virt = pageOf v then (if isPresent entry then some (frameOf entry) else none)
      else s.lookup v := by
  have htables : (s.setEntry virt entry).tableForDir = s.tableForDir := rfl
  rw [lookup, lookup, setEntry_entry hs hvalid, htables]
  by_cases hpage : pageOf virt = pageOf v
  · rw [← (pageOf_eq_iff.mp hpage).1, if_neg hvalid, if_pos hpage, if_pos hpage]
  · rw [if_neg hpage, if_neg hpage]

theorem mapPage_cases (s : Vmm) (virt phys : Word) (write user : Bool) :
    (s.tableForDir (dirIndex virt) = invalidTableIndex ∧ kMaxTables ≤ s.tablesInUse ∧
      s.mapPage virt phys write user = (false, s)) ∨
    (∃ t, s.tableForDir (dirIndex virt) = invalidTableIndex ∧
      s.addTable (dirIndex virt) write user = some t ∧
      s.mapPage virt phys write user = (true, t.setEntry virt (entryOf phys write user))) ∨
    (s.tableForDir (dirIndex virt) ≠ invalidTableIndex ∧
      s.mapPage virt phys write user = (true, s.setEntry virt (entryOf phys write user))) := by
  unfold mapPage
  by_cases habsent : s.tableForDir (dirIndex virt) = invalidTableIndex
  · cases hadd : s.addTable (dirIndex virt) write user with
    | none => exact .inl ⟨habsent, addTable_eq_none.mp hadd, by rw [if_pos habsent]⟩
    | some t => exact .inr (.inl ⟨t, habsent, rfl, by rw [if_pos habsent]; rfl⟩)
  · exact .inr (.inr ⟨habsent, by rw [if_neg habsent]; rfl⟩)

theorem unmapPage_cases (s : Vmm) (virt : Word) :
    s.unmapPage virt = (false, s) ∨
    (s.tableForDir (dirIndex virt) ≠ invalidTableIndex ∧
      s.unmapPage virt = (true, s.setEntry virt 0)) := by
  unfold unmapPage
  grind

theorem Sound.call (hs : s.Sound) (c : PageCall) : (s.call c).2.Sound := by
  cases c with
  | map virt phys write user =>
    rw [Vmm.call]
    obtain ⟨-, -, h⟩ | ⟨t, habsent, hadd, h⟩ | ⟨-, h⟩ := mapPage_cases s virt phys write user
    · rw [h]
      exact hs
    · rw [h]
      exact (hs.addTable habsent hadd).setEntry
    · rw [h]
      exact hs.setEntry
  | unmap virt =>
    rw [Vmm.call]
    obtain h | ⟨-, h⟩ := unmapPage_cases s virt
    · rw [h]
      exact hs
    · rw [h]
      exact hs.setEntry

theorem call_lookup (hs : s.Sound) (c : PageCall) (v : Word) :
    (s.call c).2.lookup v =
      if (s.call c).1 = true ∧ pageOf c.virt = pageOf v then c.target else s.lookup v := by
  cases c with
  | map virt phys write user =>
    rw [Vmm.call]
    obtain ⟨-, -, h⟩ | ⟨t, habsent, hadd, h⟩ | ⟨hvalid, h⟩ := mapPage_cases s virt phys write user
    · simp [h]
    · rw [h, setEntry_lookup (hs.addTable habsent hadd) (addTable_valid hadd),
        addTable_lookup hs habsent hadd]
      simp [PageCall.virt, PageCall.target]
    · rw [h, setEntry_lookup hs hvalid]
      simp [PageCall.virt, PageCall.target]
  | unmap virt =>
    rw [Vmm.call]
    obtain h | ⟨hvalid, h⟩ := unmapPage_cases s virt
    · simp [h]
    · rw [h, setEntry_lookup hs hvalid]
      simp [PageCall.virt, PageCall.target]

theorem mapPage_false_iff : (s.mapPage virt phys write user).1 = false ↔
    s.tableForDir (dirIndex virt) = invalidTableIndex ∧ kMaxTables ≤ s.tablesInUse := by
  obtain ⟨habsent, hfull, h⟩ | ⟨t, habsent, hadd, h⟩ | ⟨hvalid, h⟩ :=
    mapPage_cases s virt phys write user
  · simp [h, habsent, hfull]
  · simp [h, Nat.not_le.mpr (addTable_eq_some hadd).1]
  · simp [h, hvalid]

theorem mapPage_unchanged (hfail : (s.mapPage virt phys write user).1 = false) :
    (s.mapPage virt phys write user).2 = s := by
  obtain ⟨-, -, h⟩ | ⟨t, -, -, h⟩ | ⟨-, h⟩ := mapPage_cases s virt phys write user
  · rw [h]
  · simp [h] at hfail
  · simp [h] at hfail

end Steps

section Runs

variable {s : Vmm} {log : List PageCall}

structure Recorded (s : Vmm) (log : List PageCall) : Prop where
  sound : s.Sound
  lookup_eq : ∀ virt, s.lookup virt = (lastOn virt log).bind PageCall.target

theorem Recorded.present_iff (h : Recorded s log) (virt : Word) :
    s.present virt ↔ ∃ at' phys write user, lastOn virt log = some (.map at' phys write user) := by
  rw [Vmm.present_iff, h.lookup_eq]
  constructor
  · rintro ⟨frame, hframe⟩
    obtain ⟨c, hc, htarget⟩ := Option.bind_eq_some_iff.mp hframe
    cases c with
    | map at' phys write user => exact ⟨at', phys, write, user, hc⟩
    | unmap at' => cases htarget
  · rintro ⟨at', phys, write, user, hlast⟩
    exact ⟨frameOf phys, by rw [hlast]; rfl⟩

theorem Recorded.cleared (s : Vmm) : Recorded s.cleared [] :=
  ⟨Sound.cleared s, fun _ => rfl⟩

theorem Recorded.recorded (h : Recorded s log) (c : PageCall) :
    Recorded (Vmm.recorded (s, log) c).1 (Vmm.recorded (s, log) c).2 := by
  refine ⟨h.sound.call c, ?_⟩
  intro virt
  rw [Vmm.recorded, call_lookup h.sound]
  by_cases hdone : (s.call c).1 = true
  · by_cases hpage : pageOf c.virt = pageOf virt
    · simp [lastOn, hdone, hpage]
    · simp only [hdone, hpage, and_false, if_false, if_true]
      rw [h.lookup_eq, lastOn, lastOn, List.find?_cons_of_neg (by simpa using hpage)]
  · simp only [hdone]
    exact h.lookup_eq virt

theorem Recorded.history (h : Recorded s log) (calls : List PageCall) :
    Recorded (calls.foldl Vmm.recorded (s, log)).1 (calls.foldl Vmm.recorded (s, log)).2 := by
  induction calls generalizing s log with
  | nil => exact h
  | cons c calls ih => exact ih (h.recorded c)

theorem history_fst (x : Vmm × List PageCall) (calls : List PageCall) :
    (calls.foldl recorded x).1 = x.1.run calls := by
  induction calls generalizing x with
  | nil => rfl
  | cons c calls ih => exact ih _

theorem init_eq_run (s : Vmm) : s.init = s.cleared.run identityCalls := by
  rw [run, identityCalls, List.foldl_map]
  rfl

theorem recorded_run (s : Vmm) (calls : List PageCall) :
    Recorded (s.init.run calls) (s.cleared.history (identityCalls ++ calls)).2 := by
  have h := (Recorded.cleared s).history (identityCalls ++ calls)
  rw [history_fst] at h
  rw [init_eq_run, run, run, ← List.foldl_append]
  exact h

theorem Sound.init (s : Vmm) : s.init.Sound := by
  have h := (recorded_run s []).sound
  rw [run, List.foldl_nil] at h
  exact h

-- The page tables are a map from pages to frames, which the last successful call for a page
-- decides.
theorem page_tables_map (s : Vmm) (calls : List PageCall) :
    (∀ virt, (s.init.run calls).present virt ↔ ∃ at' phys write user,
      lastOn virt (s.cleared.history (identityCalls ++ calls)).2 = some (.map at' phys write user)) ∧
    (∀ virt at' phys write user,
      lastOn virt (s.cleared.history (identityCalls ++ calls)).2 = some (.map at' phys write user) →
        (s.init.run calls).virtToPhys virt = frameOf phys ||| pageOffset virt) ∧
    (∀ (c : PageCall) (virt : Word), pageOf virt ≠ pageOf c.virt →
      (((s.init.run calls).call c).2.present virt ↔ (s.init.run calls).present virt) ∧
      ((s.init.run calls).call c).2.virtToPhys virt = (s.init.run calls).virtToPhys virt) ∧
    (∀ d, (s.init.run calls).tableForDir d ≠ invalidTableIndex →
      (s.init.run calls).tableForDir d < (s.init.run calls).tablesInUse ∧
      ∀ e, (s.init.run calls).tableForDir d = (s.init.run calls).tableForDir e → d = e) ∧
    (s.init.run calls).tablesInUse ≤ 64 ∧
    (∀ virt phys write user,
      (((s.init.run calls).mapPage virt phys write user).1 = false ↔
        (s.init.run calls).tableForDir (dirIndex virt) = invalidTableIndex ∧
          (s.init.run calls).tablesInUse = 64) ∧
      (((s.init.run calls).mapPage virt phys write user).1 = false →
        ((s.init.run calls).mapPage virt phys write user).2 = s.init.run calls)) := by
  have h := recorded_run s calls
  refine ⟨h.present_iff, ?_, ?_, ?_, h.sound.limit, ?_⟩
  · intro virt at' phys write user hlast
    apply virtToPhys_of_lookup
    rw [h.lookup_eq, hlast]
    rfl
  · intro c virt hpage
    have hsame : ((s.init.run calls).call c).2.lookup virt = (s.init.run calls).lookup virt := by
      rw [call_lookup h.sound, if_neg fun hc => hpage hc.2.symm]
    exact ⟨by rw [present_iff, present_iff, hsame], virtToPhys_congr hsame⟩
  · intro d hd
    exact ⟨h.sound.below d hd, fun e => h.sound.distinct d e hd⟩
  · intro virt phys write user
    have hlimit : (s.init.run calls).tablesInUse ≤ 64 := h.sound.limit
    refine ⟨?_, mapPage_unchanged⟩
    rw [mapPage_false_iff, kMaxTables]
    constructor
    · exact fun hfull => ⟨hfull.1, Nat.le_antisymm hlimit hfull.2⟩
    · exact fun hfull => ⟨hfull.1, hfull.2.ge⟩

end Runs

end Vmm

end Wirth.Kernel.Mm

import Wirth.Kernel.Storage.Crash

namespace Wirth.Kernel.Storage

open Wirth.Lib

-- Acts one after the other, some of whose reads may fail, with all that they write.
inductive Machine.Run (allowed : Machine → Failures → Act → Prop) :
    Machine → List Write → Machine → Prop
  | refl (m : Machine) : Run allowed m [] m
  | step {m mid m' : Machine} {ws vs : List Write} {a : Act} {reads : List Bool}
      (hrun : Run allowed m ws mid) (hallowed : allowed mid ⟨reads, []⟩ a)
      (hact : mid.act ⟨reads, []⟩ a = some (vs, m')) : Run allowed m (ws ++ vs) m'

def Machine.Careful (m : Machine) (failures : Failures) (a : Act) : Prop :=
  m.Fits a ∧ m.Informed failures a

theorem Machine.Run.keeps {m m' : Machine} {ws : List Write} {records : List Stored}
    (hsound : m.Sound records) (h : Run Machine.Careful m ws m') :
    ∃ more, records <+: more ∧ m'.Sound more ∧ ∀ r ∈ records, ∀ w ∈ ws,
      w.lba < r.handle.startLba ∨ r.handle.startLba + r.handle.sectors ≤ w.lba := by
  induction h with
  | refl => grind
  | step _ hallowed hact ih =>
    obtain ⟨more, hmore, hmid, hapart⟩ := ih
    have hkeeps := act_keeps hmid hallowed.1 hallowed.2 hact
    obtain ⟨most, hmost, hend⟩ := hkeeps.sound
    refine ⟨most, hmore.trans hmost, hend, fun r hr w hw => ?_⟩
    rcases List.mem_append.mp hw with hw | hw
    · exact hapart r hr w hw
    · exact hkeeps.apart r (hmore.subset hr) w hw

-- As long as nothing is decided by what could not be read, the entries of the index stay and
-- their sectors are left alone.
theorem careful_run_keeps {m m' : Machine} {ws vs : List Write}
    (hbefore : Machine.Run Machine.Careful .fresh ws m) (h : Machine.Run Machine.Careful m vs m') :
    ∃ es es', indexEntries (m.disk indexLba) = some es ∧
      indexEntries (m'.disk indexLba) = some es' ∧ es <+: es' ∧
      ∀ e ∈ es, ∀ w ∈ vs, w.lba < e.startLba ∨ e.startLba + e.sectors ≤ w.lba := by
  obtain ⟨records, _, hsound, _⟩ := hbefore.keeps Machine.fresh_sound
  obtain ⟨more, hmore, hend, hapart⟩ := h.keeps hsound
  refine ⟨records.map Stored.entry, more.map Stored.entry, hsound.disk.index.indexEntries,
    hend.disk.index.indexEntries, hmore.map _, fun e he => ?_⟩
  obtain ⟨r, hr, rfl⟩ := List.mem_map.mp he
  exact hapart r hr

theorem oneEntry_run {allowed : Machine → Failures → Act → Prop}
    (hallowed : ∀ m reads a, m.Careful ⟨reads, []⟩ a → allowed m ⟨reads, []⟩ a) :
    ∃ ws, Machine.Run allowed .fresh ws oneEntry := by
  have hboot : Machine.Run allowed .fresh _ (Machine.fresh.after [] .boot) :=
    .step (.refl _) (hallowed _ _ .boot ⟨trivial, trivial⟩) rfl
  have hwrite : Machine.Run allowed .fresh _
      ((Machine.fresh.after [] .boot).after [] (.write [1, 2, 3])) :=
    .step hboot (hallowed _ _ (.write [1, 2, 3])
      ⟨⟨by decide, fun st hst => by cases hst; decide +kernel⟩, fun st hst => by cases hst; decide +kernel⟩) rfl
  exact ⟨_, .step hwrite (hallowed _ [] (.index (lit "a")) ⟨trivial, Or.inl rfl⟩) rfl⟩

-- A boot that cannot read the superblock does no harm when the next one can.
theorem careful_run_keeps_entry : ∃ ws vs, Machine.Run Machine.Careful .fresh ws oneEntry ∧
    Machine.Run Machine.Careful oneEntry vs
      (((oneEntry.after [true] .boot).after [] .boot).after [] (.write [9])) ∧
    ∃ es es', indexEntries (oneEntry.disk indexLba) = some es ∧
      indexEntries ((((oneEntry.after [true] .boot).after [] .boot).after [] (.write [9])).disk
        indexLba) = some es' ∧ es <+: es' ∧
      ∀ e ∈ es, ∀ w ∈ vs, w.lba < e.startLba ∨ e.startLba + e.sectors ≤ w.lba := by
  obtain ⟨ws, hbefore⟩ := @oneEntry_run Machine.Careful fun _ _ _ h => h
  have hblind : Machine.Run Machine.Careful oneEntry _ (oneEntry.after [true] .boot) :=
    .step (a := .boot) (.refl _) ⟨trivial, trivial⟩ rfl
  have hboot : Machine.Run Machine.Careful oneEntry _
      ((oneEntry.after [true] .boot).after [] .boot) := .step (a := .boot) hblind ⟨trivial, trivial⟩ rfl
  have hwrite : Machine.Run Machine.Careful oneEntry _
      (((oneEntry.after [true] .boot).after [] .boot).after [] (.write [9])) :=
    .step (a := .write [9]) hboot ⟨⟨by decide, fun st hst => by cases hst; decide +kernel⟩,
      fun st hst => by cases hst; decide +kernel⟩ rfl
  exact ⟨ws, _, hbefore, hwrite, careful_run_keeps hbefore hwrite⟩

-- After a boot that could not read the superblock, data is written over the data that is there.
-- An entry that is added when the index cannot be read takes the place of the others.
theorem failed_read_destroys : ∃ ws vs us,
    Machine.Run (fun m _ a => m.Fits a) .fresh ws oneEntry ∧
    indexEntries (oneEntry.disk indexLba) = some [⟨lit "a", 10, 1⟩] ∧
    Machine.Run (fun m _ a => m.Fits a) oneEntry vs
      ((oneEntry.after [true] .boot).after [] (.write [9])) ∧ (∃ w ∈ vs, w.lba = 10) ∧
    Machine.Run (fun m _ a => m.Fits a) oneEntry us
      ((oneEntry.after [] (.write [9])).after [true] (.index (lit "b"))) ∧
    indexEntries (((oneEntry.after [] (.write [9])).after [true] (.index (lit "b"))).disk indexLba) =
      some [⟨lit "b", 11, 1⟩] := by
  obtain ⟨ws, hbefore⟩ := @oneEntry_run (fun m _ a => m.Fits a) fun _ _ _ h => h.1
  have hblind : Machine.Run (fun m _ a => m.Fits a) oneEntry _ (oneEntry.after [true] .boot) :=
    .step (a := .boot) (.refl _) trivial rfl
  have hover : Machine.Run (fun m _ a => m.Fits a) oneEntry _
      ((oneEntry.after [true] .boot).after [] (.write [9])) :=
    .step (a := .write [9]) hblind ⟨by decide, fun st hst => by cases hst; decide +kernel⟩ rfl
  have hsecond : Machine.Run (fun m _ a => m.Fits a) oneEntry _ (oneEntry.after [] (.write [9])) :=
    .step (a := .write [9]) (.refl _) ⟨by decide, fun st hst => by cases hst; decide +kernel⟩ rfl
  have hlost : Machine.Run (fun m _ a => m.Fits a) oneEntry _
      ((oneEntry.after [] (.write [9])).after [true] (.index (lit "b"))) :=
    .step (a := .index (lit "b")) hsecond trivial rfl
  refine ⟨ws, _, _, hbefore, by decide +kernel, hover, ?_, hlost, by decide +kernel⟩
  exact ⟨⟨10, .ofBytes [9]⟩, by decide +kernel, rfl⟩

end Wirth.Kernel.Storage

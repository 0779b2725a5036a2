import Mathlib.Algebra.GroupWithZero.Nat
import Mathlib.Data.List.Forall2
import Mathlib.Data.Nat.Find

namespace Wirth.Kernel.Nvme

structure NvmeCommand where
  opcode : UInt8
  cid : UInt16
  nsid : UInt32
  prp1 : UInt64
  prp2 : UInt64
  cdw10 : UInt32
  cdw11 : UInt32
  cdw12 : UInt32
  deriving DecidableEq

def NvmeCommand.zero : NvmeCommand := ⟨0, 0, 0, 0, 0, 0, 0, 0⟩

structure NvmeCompletion where
  dw0 : UInt32
  dw1 : UInt32
  dw2 : UInt32
  dw3 : UInt32
  deriving DecidableEq

def NvmeCompletion.zero : NvmeCompletion := ⟨0, 0, 0, 0⟩

structure NvmeQueue where
  sq : Nat → NvmeCommand
  cq : Nat → NvmeCompletion
  depth : UInt16
  sqTail : Nat
  cqHead : Nat
  cqPhase : Bool
  nextCid : UInt16

def queueInit (depth : UInt16) : NvmeQueue where
  sq _ := .zero
  cq _ := .zero
  depth := depth
  sqTail := 0
  cqHead := 0
  cqPhase := true
  nextCid := 1

-- How the driver reads an entry.
namespace NvmeCompletion

variable (cqe : NvmeCompletion)

def cid : UInt16 := UInt32.toUInt16 (cqe.dw3 &&& 0xFFFF)

def status : UInt16 := UInt32.toUInt16 (cqe.dw3 >>> 16)

def phase : Bool := cqe.status &&& 1 != 0

def statusCode : UInt8 := UInt16.toUInt8 ((cqe.status >>> 1) &&& 0x7F)

end NvmeCompletion

-- What the controller says about a command: the status code, its type, and the four bits above.
structure Status where
  code : UInt8
  type : BitVec 3
  rest : BitVec 4
  deriving DecidableEq

def Status.Success (s : Status) : Prop := s.code = 0 ∧ s.type = 0

instance (s : Status) : Decidable s.Success := inferInstanceAs (Decidable (_ ∧ _))

-- The upper half of the last word of an entry, with the phase bit.
def Status.field (s : Status) (phase : Bool) : Nat :=
  phase.toNat + 2 * s.code.toNat + 2 ^ 9 * s.type.toNat + 2 ^ 12 * s.rest.toNat

structure Posted where
  command : NvmeCommand
  status : Status
  entry : NvmeCompletion

-- The driver's queue, and the controller with its own cursors and the two doorbells. The log tells
-- what it has posted during a call.
structure Machine where
  queue : NvmeQueue
  sqDoorbell : Nat
  cqDoorbell : Nat
  sqHead : Nat
  cqTail : Nat
  phase : Bool
  posted : List Posted

def Machine.init (depth : UInt16) : Machine where
  queue := queueInit depth
  sqDoorbell := 0
  cqDoorbell := 0
  sqHead := 0
  cqTail := 0
  phase := true
  posted := []

def Machine.next (m : Machine) (i : Nat) : Nat := (i + 1) % m.queue.depth.toNat

def Machine.entry (m : Machine) (s : Status) : NvmeCompletion where
  dw0 := 0
  dw1 := 0
  dw2 := UInt32.ofNat (m.next m.sqHead)
  dw3 := UInt32.ofNat ((m.queue.sq m.sqHead).cid.toNat + 2 ^ 16 * s.field m.phase)

-- The controller completes the next command, if there is one and there is room for the entry.
def Machine.complete (m : Machine) (s : Status) : Machine :=
  if m.sqHead = m.sqDoorbell ∨ m.next m.cqTail = m.cqDoorbell then m
  else
    { m with
      queue := { m.queue with cq := Function.update m.queue.cq m.cqTail (m.entry s) }
      sqHead := m.next m.sqHead
      cqTail := m.next m.cqTail
      phase := if m.next m.cqTail = 0 then !m.phase else m.phase
      posted := m.posted ++ [⟨m.queue.sq m.sqHead, s, m.entry s⟩] }

structure Answer where
  machine : Machine
  cqe : NvmeCompletion
  completion : UInt8
  ok : Bool

def Machine.consume (m : Machine) : Machine :=
  { m with
    queue := { m.queue with
      cq := Function.update m.queue.cq m.queue.cqHead .zero
      cqHead := m.next m.queue.cqHead
      cqPhase := if m.next m.queue.cqHead = 0 then !m.queue.cqPhase else m.queue.cqPhase }
    cqDoorbell := m.next m.queue.cqHead }

def Machine.act (m : Machine) : Option Status → Machine
  | none => m
  | some s => m.complete s

-- The polling loop. Before each look at the queue the controller may complete a command.
def waitForCqe (cid : UInt16) (activity : Nat → Option Status) : Nat → Nat → Machine → Option Answer
  | 0, _, _ => none
  | fuel + 1, poll, m =>
      let m := m.act (activity poll)
      let cqe := m.queue.cq m.queue.cqHead
      if cqe.phase ≠ m.queue.cqPhase ∨ cqe.cid ≠ cid then waitForCqe cid activity fuel (poll + 1) m
      else some ⟨m.consume, cqe, cqe.statusCode, cqe.statusCode = 0⟩

def Machine.cid (m : Machine) : UInt16 := if m.queue.nextCid = 0 then 1 else m.queue.nextCid

def Machine.enqueue (m : Machine) (command : NvmeCommand) : Machine :=
  { m with
    queue := { m.queue with
      nextCid := m.cid + 1
      sq := Function.update m.queue.sq m.queue.sqTail { command with cid := m.cid }
      sqTail := m.next m.queue.sqTail }
    sqDoorbell := m.next m.queue.sqTail
    posted := [] }

def submitCommand (m : Machine) (command : NvmeCommand) (activity : Nat → Option Status)
    (fuel : Nat) : Option Answer :=
  waitForCqe m.cid activity fuel 0 (m.enqueue command)

-- A command and what the controller does while it is waited for.
abbrev Call := NvmeCommand × (Nat → Option Status)

def submitAll (fuel : Nat) : Machine → List Call → Option (List Answer)
  | _, [] => some []
  | m, call :: rest => do
      let answer ← submitCommand m call.1 call.2 fuel
      let answers ← submitAll fuel answer.machine rest
      some (answer :: answers)

-- Between two calls: nothing is under way, all entries are clear, and driver and controller agree.
structure Ready (m : Machine) : Prop where
  depth : 2 ≤ m.queue.depth
  submitted : m.sqHead = m.queue.sqTail
  completed : m.cqTail = m.queue.cqHead
  doorbell : m.cqDoorbell = m.queue.cqHead
  tail : m.queue.sqTail < m.queue.depth.toNat
  head : m.queue.cqHead < m.queue.depth.toNat
  phase : m.phase = m.queue.cqPhase
  clear : ∀ i, m.queue.cq i = .zero

-- The call took the one entry that the controller posted meanwhile, and this is the one for its own
-- command.
structure Served (call : Call) (answer : Answer) : Prop where
  own : ∃ p, answer.machine.posted = [p] ∧ p.command = { call.1 with cid := p.command.cid } ∧
    p.entry = answer.cqe ∧ p.entry.cid = p.command.cid ∧ ∃ k, call.2 k = some p.status ∧
      ∀ j < k, call.2 j = none

section Entries

variable {m : Machine} {s : Status}

theorem Status.field_lt (s : Status) (phase : Bool) : s.field phase < 2 ^ 16 := by
  have hcode := s.code.toNat_lt
  have hphase : phase.toNat ≤ 1 := by cases phase <;> decide
  rw [Status.field]
  omega

theorem entry_dw3 : (m.entry s).dw3.toNat =
    (m.queue.sq m.sqHead).cid.toNat + 2 ^ 16 * s.field m.phase := by
  have hcid := (m.queue.sq m.sqHead).cid.toNat_lt
  have hfield := s.field_lt m.phase
  grind [Machine.entry, UInt32.toNat_ofNat_of_lt']

theorem entry_cid : (m.entry s).cid = (m.queue.sq m.sqHead).cid := by
  have hcid := (m.queue.sq m.sqHead).cid.toNat_lt
  rw [← UInt16.toNat_inj, NvmeCompletion.cid, UInt32.toNat_toUInt16, UInt32.toNat_and, entry_dw3,
    show (0xFFFF : UInt32).toNat = 2 ^ 16 - 1 from rfl, Nat.and_two_pow_sub_one_eq_mod]
  omega

theorem entry_status : (m.entry s).status.toNat = s.field m.phase := by
  have hcid := (m.queue.sq m.sqHead).cid.toNat_lt
  have hfield := s.field_lt m.phase
  rw [NvmeCompletion.status, UInt32.toNat_toUInt16, UInt32.toNat_shiftRight, entry_dw3,
    show (16 : UInt32).toNat % 32 = 16 from rfl, Nat.shiftRight_eq_div_pow]
  omega

theorem entry_phase : (m.entry s).phase = m.phase := by
  have hbit : ((m.entry s).status &&& 1).toNat = m.phase.toNat := by
    rw [UInt16.toNat_and, entry_status, show (1 : UInt16).toNat = 2 ^ 1 - 1 from rfl,
      Nat.and_two_pow_sub_one_eq_mod, Status.field]
    cases m.phase <;> simp only [Bool.toNat_true, Bool.toNat_false] <;> omega
  rw [NvmeCompletion.phase]
  cases hphase : m.phase with
  | false =>
    rw [hphase] at hbit
    simpa using UInt16.toNat_inj.mp (hbit.trans (by rfl : _ = (0 : UInt16).toNat))
  | true =>
    rw [hphase] at hbit
    rw [UInt16.toNat_inj.mp (hbit.trans (by rfl : _ = (1 : UInt16).toNat))]
    decide

theorem entry_statusCode : (m.entry s).statusCode.toNat = s.code.toNat % 128 := by
  rw [NvmeCompletion.statusCode, UInt16.toNat_toUInt8, UInt16.toNat_and, UInt16.toNat_shiftRight,
    entry_status, show (0x7F : UInt16).toNat = 2 ^ 7 - 1 from rfl, Nat.and_two_pow_sub_one_eq_mod,
    show (1 : UInt16).toNat % 16 = 1 from rfl, Nat.shiftRight_eq_div_pow, Status.field]
  have hphase : m.phase.toNat ≤ 1 := by cases m.phase <;> decide
  omega

end Entries

section Calls

variable {m : Machine} {command : NvmeCommand} {activity : Nat → Option Status} {s : Status}

theorem ready_init {depth : UInt16} (h : 2 ≤ depth) : Ready (.init depth) := by
  have hpos : 0 < depth.toNat := by
    have : (2 : UInt16).toNat ≤ depth.toNat := UInt16.le_iff_toNat_le.mp h
    exact Nat.lt_of_lt_of_le (by decide) this
  exact ⟨h, rfl, rfl, rfl, hpos, hpos, rfl, fun _ => rfl⟩

theorem Machine.cid_ne_zero (m : Machine) : m.cid ≠ 0 := by
  rw [Machine.cid]
  grind

theorem Ready.next_lt (h : Ready m) (i : Nat) : m.next i < m.queue.depth.toNat :=
  Nat.mod_lt _ (Nat.lt_of_le_of_lt (Nat.zero_le _) h.tail)

theorem Ready.next_ne (h : Ready m) {i : Nat} (hi : i < m.queue.depth.toNat) : m.next i ≠ i := by
  have hdepth : (2 : UInt16).toNat ≤ m.queue.depth.toNat := UInt16.le_iff_toNat_le.mp h.depth
  rw [show (2 : UInt16).toNat = 2 from rfl] at hdepth
  rw [Machine.next]
  by_cases hlast : i + 1 = m.queue.depth.toNat
  · rw [hlast, Nat.mod_self]
    omega
  · rw [Nat.mod_eq_of_lt (by omega)]
    omega

theorem Ready.complete_enqueue (h : Ready m) : (m.enqueue command).complete s =
    { m.enqueue command with
      queue := { (m.enqueue command).queue with
        cq := Function.update m.queue.cq m.cqTail ((m.enqueue command).entry s) }
      sqHead := m.next m.sqHead
      cqTail := m.next m.cqTail
      phase := if m.next m.cqTail = 0 then !m.phase else m.phase
      posted := [⟨(m.enqueue command).queue.sq m.sqHead, s, (m.enqueue command).entry s⟩] } := by
  have hpending : m.sqHead ≠ m.next m.queue.sqTail := by
    rw [h.submitted]
    exact (h.next_ne h.tail).symm
  have hroom : m.next m.cqTail ≠ m.cqDoorbell := by
    rw [h.completed, h.doorbell]
    exact h.next_ne h.head
  exact if_neg (not_or.mpr ⟨hpending, hroom⟩)

theorem Ready.enqueue_sq (h : Ready m) :
    (m.enqueue command).queue.sq (m.enqueue command).sqHead = { command with cid := m.cid } := by
  change Function.update m.queue.sq m.queue.sqTail _ m.sqHead = _
  rw [h.submitted, Function.update_self]

theorem Ready.consume (h : Ready m) : Ready ((m.enqueue command).complete s).consume := by
  rw [h.complete_enqueue]
  refine ⟨h.depth, ?_, ?_, rfl, h.next_lt _, h.next_lt _, ?_, fun i => ?_⟩
  · exact congrArg m.next h.submitted
  · exact congrArg m.next h.completed
  · change (if m.next m.cqTail = 0 then !m.phase else m.phase) =
      if m.next m.queue.cqHead = 0 then !m.queue.cqPhase else m.queue.cqPhase
    rw [h.completed, h.phase]
  · change Function.update (Function.update m.queue.cq m.cqTail _) m.queue.cqHead .zero i = .zero
    rw [h.completed, Function.update_idem]
    by_cases hi : i = m.queue.cqHead
    · rw [hi, Function.update_self]
    · rw [Function.update_of_ne hi, h.clear]

-- While the controller is idle the entry at the head is clear, and no command has identifier 0.
theorem Ready.waits (h : Ready m) {fuel poll : Nat} (hidle : activity poll = none) :
    waitForCqe m.cid activity (fuel + 1) poll (m.enqueue command) =
      waitForCqe m.cid activity fuel (poll + 1) (m.enqueue command) := by
  have hclear : (m.enqueue command).queue.cq (m.enqueue command).queue.cqHead = .zero := h.clear _
  have hcid : NvmeCompletion.zero.cid ≠ m.cid := fun hzero => m.cid_ne_zero hzero.symm
  simp [waitForCqe, Machine.act, hidle, hclear, hcid]

def Machine.answer (m : Machine) (command : NvmeCommand) (s : Status) : Answer where
  machine := ((m.enqueue command).complete s).consume
  cqe := (m.enqueue command).entry s
  completion := ((m.enqueue command).entry s).statusCode
  ok := ((m.enqueue command).entry s).statusCode = 0

theorem Ready.served (h : Ready m) {fuel poll : Nat} (hs : activity poll = some s) :
    waitForCqe m.cid activity (fuel + 1) poll (m.enqueue command) = some (m.answer command s) := by
  have hentry : ((m.enqueue command).complete s).queue.cq ((m.enqueue command).complete s).queue.cqHead =
      (m.enqueue command).entry s := by
    rw [h.complete_enqueue]
    change Function.update m.queue.cq m.cqTail _ m.queue.cqHead = _
    rw [h.completed, Function.update_self]
  have hphase : ((m.enqueue command).complete s).queue.cqPhase = m.phase := by
    rw [h.complete_enqueue, h.phase]
    rfl
  rw [waitForCqe, hs]
  simp only [Machine.act, hentry]
  refine if_neg (not_or.mpr ⟨not_not_intro ?_, not_not_intro ?_⟩)
  · rw [hphase]
    exact entry_phase
  · rw [entry_cid, h.enqueue_sq]

theorem Ready.posted (h : Ready m) : (m.answer command s).machine.posted =
    [⟨(m.enqueue command).queue.sq m.sqHead, s, (m.enqueue command).entry s⟩] := by
  rw [Machine.answer, h.complete_enqueue]
  rfl

theorem Ready.submitCommand (h : Ready m) {k fuel : Nat} (hidle : ∀ j < k, activity j = none)
    (hs : activity k = some s) (hfuel : k < fuel) :
    submitCommand m command activity fuel = some (m.answer command s) := by
  obtain ⟨n, rfl⟩ : ∃ n, fuel = k + 1 + n := ⟨fuel - (k + 1), by omega⟩
  have hwait : ∀ i ≤ k, waitForCqe m.cid activity (k + 1 + n) 0 (m.enqueue command) =
      waitForCqe m.cid activity (k - i + 1 + n) i (m.enqueue command) := by
    intro i hi
    induction i with
    | zero => rfl
    | succ i ih =>
      rw [ih (by omega), show k - i + 1 + n = (k - (i + 1) + 1 + n) + 1 by omega,
        h.waits (hidle i (by omega))]
  rw [Nvme.submitCommand, hwait k le_rfl, show k - k + 1 + n = n + 1 by omega, h.served hs]

theorem Ready.served_answer (h : Ready m) {k : Nat} (hidle : ∀ j < k, activity j = none)
    (hs : activity k = some s) : Served (command, activity) (m.answer command s) := by
  refine ⟨⟨(m.enqueue command).queue.sq m.sqHead, s, (m.enqueue command).entry s⟩, h.posted, ?_, rfl, ?_,
    k, hs, hidle⟩
  · rw [show m.sqHead = (m.enqueue command).sqHead from rfl, h.enqueue_sq]
  · exact entry_cid

theorem Ready.answer_ok (h : Ready m) {p : Posted} (hp : p ∈ (m.answer command s).machine.posted) :
    (m.answer command s).ok = true ↔ p.status.code.toNat % 128 = 0 := by
  rw [h.posted, List.mem_singleton] at hp
  subst hp
  rw [Machine.answer, decide_eq_true_eq, ← UInt8.toNat_inj, entry_statusCode]
  rfl

theorem Ready.submitAll (h : Ready m) {calls : List Call}
    (hacts : ∀ call ∈ calls, ∃ k s, call.2 k = some s) :
    ∃ answers bound, (∀ fuel, bound ≤ fuel → submitAll fuel m calls = some answers) ∧
      List.Forall₂ Served calls answers ∧
      ∀ answer ∈ answers, ∀ p ∈ answer.machine.posted,
        answer.ok = true ↔ p.status.code.toNat % 128 = 0 := by
  induction calls generalizing m with
  | nil => exact ⟨[], 0, fun _ _ => rfl, .nil, by rintro answer ⟨⟩⟩
  | cons call rest ih =>
    obtain ⟨command, activity⟩ := call
    have hact : ∃ k, (activity k).isSome = true := by
      obtain ⟨k, s, hs⟩ := hacts _ List.mem_cons_self
      exact ⟨k, Option.isSome_iff_exists.mpr ⟨s, hs⟩⟩
    obtain ⟨s, hs⟩ := Option.isSome_iff_exists.mp (Nat.find_spec hact)
    have hidle : ∀ j < Nat.find hact, activity j = none := fun j hj => by
      simpa using Nat.find_min hact hj
    obtain ⟨answers, bound, hrun, hserved, hok⟩ := ih (@Ready.consume m command s h)
      fun call hcall => hacts call (List.mem_cons_of_mem _ hcall)
    refine ⟨m.answer command s :: answers, max bound (Nat.find hact + 1), fun fuel hfuel => ?_,
      .cons (h.served_answer hidle hs) hserved, ?_⟩
    · rw [Nvme.submitAll, h.submitCommand hidle hs (by omega)]
      change (Nvme.submitAll fuel (m.answer command s).machine rest).bind _ = _
      rw [show (m.answer command s).machine = ((m.enqueue command).complete s).consume from rfl,
        hrun fuel (by omega)]
      rfl
    · intro answer hanswer
      rcases List.mem_cons.mp hanswer with rfl | hlater
      · exact fun p hp => h.answer_ok hp
      · exact hok answer hlater

end Calls

-- Every call ends with the entry of its own command. It tells success from failure if and only if no
-- failure has a status code whose low seven bits are 0.
theorem completions_matched_iff {depth : UInt16} (hdepth : 2 ≤ depth) {calls : List Call}
    (hacts : ∀ call ∈ calls, ∃ k s, call.2 k = some s) :
    ∃ answers bound, (∀ fuel, bound ≤ fuel → submitAll fuel (.init depth) calls = some answers) ∧
      List.Forall₂ Served calls answers ∧
      ((∀ answer ∈ answers, ∀ p ∈ answer.machine.posted, answer.ok = true ↔ p.status.Success) ↔
        ∀ answer ∈ answers, ∀ p ∈ answer.machine.posted,
          p.status.code.toNat % 128 = 0 → p.status.Success) := by
  obtain ⟨answers, bound, hrun, hserved, hok⟩ := (ready_init hdepth).submitAll hacts
  refine ⟨answers, bound, hrun, hserved, ?_⟩
  refine forall₂_congr fun answer hanswer => forall₂_congr fun p hp => ?_
  rw [hok answer hanswer p hp]
  refine ⟨fun hiff => hiff.mp, fun himp => ⟨himp, fun hsuccess => ?_⟩⟩
  rw [hsuccess.1]
  rfl

-- Three calls on the smallest queue. The second one fails, and the controller takes its time.
def threeCalls : List Call :=
  [(.zero, fun _ => some ⟨0, 0, 0⟩), (.zero, fun k => if k < 3 then none else some ⟨2, 0, 8⟩),
    (.zero, fun _ => some ⟨0, 0, 0⟩)]

theorem three_calls_matched : ∃ answers fuel, submitAll fuel (.init 2) threeCalls = some answers ∧
    List.Forall₂ Served threeCalls answers := by
  have hacts : ∀ call ∈ threeCalls, ∃ k s, call.2 k = some s := by
    intro call hcall
    rw [threeCalls, List.mem_cons, List.mem_cons, List.mem_singleton] at hcall
    rcases hcall with rfl | rfl | rfl
    · exact ⟨0, _, rfl⟩
    · exact ⟨3, _, rfl⟩
    · exact ⟨0, _, rfl⟩
  obtain ⟨answers, bound, hrun, hserved, -⟩ := @completions_matched_iff 2 (by decide) _ hacts
  exact ⟨answers, bound, hrun bound le_rfl, hserved⟩

-- An address beyond the end of the disk (status code 0x80) and a completion queue that is not valid
-- (status code 0 of type 1) both count as success.
theorem failures_reported_as_success :
    (submitCommand (.init 32) .zero (fun _ => some ⟨0x80, 0, 0⟩) 1).map (·.ok) = some true ∧
    (submitCommand (.init 32) .zero (fun _ => some ⟨0, 1, 0⟩) 1).map (·.ok) = some true ∧
    ¬(⟨0x80, 0, 0⟩ : Status).Success ∧ ¬(⟨0, 1, 0⟩ : Status).Success := by
  decide +kernel

end Wirth.Kernel.Nvme

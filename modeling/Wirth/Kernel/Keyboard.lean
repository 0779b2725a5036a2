import Wirth.Lib.Ring
import Wirth.Lib.Text

namespace Wirth.Kernel.Keyboard

open Wirth.Lib

-- The scancodes that stand for characters, as runs from their first one on.
def keys : List (Nat × Str) :=
  [(0x02, lit "1234567890-="), (0x0E, [8]), (0x10, lit "qwertyuiop[]\n"), (0x1E, lit "asdfghjkl;'`"),
    (0x2B, lit "\\zxcvbnm,./"), (0x39, lit " ")]

-- Zero for every other scancode.
def charOf (scancode : UInt8) : UInt8 :=
  (keys.findSome? fun run =>
    if run.1 ≤ scancode.toNat then run.2[scancode.toNat - run.1]? else none).getD 0

def next (i : Nat) : Nat := (i + 1) &&& 255

structure Queue where
  kbuf : Nat → UInt8
  head : Nat
  tail : Nat

def Queue.empty : Queue := ⟨fun _ => 0, 0, 0⟩

def Queue.enqueueFromIsr (q : Queue) (scancode : UInt8) : Queue :=
  let ch := charOf scancode
  if ch = 0 then q
  else
    let n := next q.head
    if n = q.tail then q
    else { q with kbuf := Function.update q.kbuf q.head ch, head := n }

def Queue.dequeueChar (q : Queue) : Option UInt8 × Queue :=
  if q.head = q.tail then (none, q) else (some (q.kbuf q.tail), { q with tail := next q.tail })

inductive Call where
  | enqueue (scancode : UInt8)
  | dequeue

-- The queue with the characters that were accepted and those that were given back so far.
structure Session where
  queue : Queue
  accepted : Str
  dequeued : Str

def Session.call (s : Session) : Call → Session
  | .enqueue scancode =>
      let q := s.queue.enqueueFromIsr scancode
      ⟨q, if q.head = s.queue.head then s.accepted else s.accepted ++ [charOf scancode], s.dequeued⟩
  | .dequeue => ⟨s.queue.dequeueChar.2, s.accepted, s.dequeued ++ s.queue.dequeueChar.1.toList⟩

-- The indices count the characters, and those from the tail on are in the buffer.
structure Session.Fifo (s : Session) (waiting : Str) : Prop where
  accepted : s.accepted = s.dequeued ++ waiting
  room : waiting.length ≤ 255
  head : s.queue.head = s.accepted.length % 256
  tail : s.queue.tail = s.dequeued.length % 256
  holds : Ring.Holds 256 s.queue.kbuf s.dequeued.length s.accepted

theorem next_mod (n : Nat) : next (n % 256) = (n + 1) % 256 := by
  rw [next, show 255 = 2 ^ 8 - 1 from rfl, Nat.and_two_pow_sub_one_eq_mod]
  omega

section Step

variable {s : Session} {waiting : Str}

theorem Session.Fifo.length (h : s.Fifo waiting) :
    s.accepted.length = s.dequeued.length + waiting.length := by
  rw [h.accepted, List.length_append]

theorem Session.Fifo.full_iff (h : s.Fifo waiting) :
    next s.queue.head = s.queue.tail ↔ waiting.length = 255 := by
  have hlength := h.length
  have hroom := h.room
  rw [h.head, h.tail, next_mod]
  omega

theorem Session.Fifo.empty_iff (h : s.Fifo waiting) : s.queue.head = s.queue.tail ↔ waiting = [] := by
  have hlength := h.length
  have hroom := h.room
  rw [h.head, h.tail, ← List.length_eq_zero_iff]
  omega

theorem Session.Fifo.dropped_iff (h : s.Fifo waiting) (scancode : UInt8) :
    (s.queue.enqueueFromIsr scancode).head = s.queue.head ↔
      charOf scancode = 0 ∨ waiting.length = 255 := by
  unfold Queue.enqueueFromIsr
  by_cases hch : charOf scancode = 0
  · simp [hch]
  by_cases hfull : next s.queue.head = s.queue.tail
  · simp [hfull, h.full_iff.mp hfull]
  · have hmoves : next s.queue.head ≠ s.queue.head := by
      rw [h.head, next_mod]
      omega
    simp [hch, hfull, hmoves, mt h.full_iff.mpr hfull]

theorem Session.Fifo.call (h : s.Fifo waiting) (c : Call) : ∃ waiting', (s.call c).Fifo waiting' := by
  cases c with
  | enqueue scancode =>
    have hdropped := h.dropped_iff scancode
    unfold Session.call
    by_cases hch : charOf scancode = 0
    · exact ⟨waiting, by simpa [Queue.enqueueFromIsr, hch] using h⟩
    by_cases hfull : next s.queue.head = s.queue.tail
    · exact ⟨waiting, by simpa [Queue.enqueueFromIsr, hfull] using h⟩
    have hroom : waiting.length < 255 := Nat.lt_of_le_of_ne h.room (mt h.full_iff.mpr hfull)
    have hkept : (s.queue.enqueueFromIsr scancode).head ≠ s.queue.head := by
      rw [Ne, hdropped]
      exact not_or.mpr ⟨hch, hroom.ne⟩
    refine ⟨waiting ++ [charOf scancode], ?_⟩
    simp only [hkept, if_false]
    simp only [Queue.enqueueFromIsr, hch, hfull, if_false]
    have hlength := h.length
    refine ⟨by simp [h.accepted], by simp; omega, ?_, h.tail, ?_⟩
    · rw [h.head, next_mod, List.length_append, List.length_singleton]
    · rw [h.head]
      exact h.holds.push (by omega) _
  | dequeue =>
    unfold Session.call Queue.dequeueChar
    cases waiting with
    | nil => exact ⟨[], by simpa [h.empty_iff.mpr rfl] using h⟩
    | cons c rest =>
      have hsome : s.queue.head ≠ s.queue.tail := mt h.empty_iff.mp (List.cons_ne_nil c rest)
      have hfirst : s.queue.kbuf s.queue.tail = c := by
        rw [h.tail]
        exact h.holds _ c (Nat.le_refl _) (by simp [h.accepted])
      have hroom := h.room
      refine ⟨rest, ?_⟩
      simp only [hsome, if_false, hfirst, Option.toList_some]
      refine ⟨by simp [h.accepted], by simp only [List.length_cons] at hroom; omega, h.head, ?_, ?_⟩
      · rw [h.tail, next_mod, List.length_append, List.length_singleton]
      · exact h.holds.mono (by simp)

end Step

-- What is accepted is given back in order and once, a character is dropped exactly when 255 are
-- waiting, and `dequeue_char` fails exactly when none is.
theorem keyboard_fifo (calls : List Call) :
    let s := calls.foldl Session.call ⟨.empty, [], []⟩
    ∃ waiting, s.accepted = s.dequeued ++ waiting ∧ waiting.length ≤ 255 ∧
      (∀ scancode, (s.queue.enqueueFromIsr scancode).head = s.queue.head ↔
        charOf scancode = 0 ∨ waiting.length = 255) ∧
      (s.queue.dequeueChar.1 = none ↔ waiting = []) := by
  have hfifo : ∃ waiting, (calls.foldl Session.call ⟨.empty, [], []⟩).Fifo waiting := by
    induction calls using List.reverseRecOn with
    | nil => exact ⟨[], rfl, by simp, rfl, rfl, fun i a _ h => by simp at h⟩
    | append_singleton calls c ih =>
      obtain ⟨waiting, h⟩ := ih
      rw [List.foldl_append]
      exact h.call c
  obtain ⟨waiting, h⟩ := hfifo
  refine ⟨waiting, h.accepted, h.room, h.dropped_iff, ?_⟩
  rw [← h.empty_iff, Queue.dequeueChar]
  split <;> simp_all

end Wirth.Kernel.Keyboard

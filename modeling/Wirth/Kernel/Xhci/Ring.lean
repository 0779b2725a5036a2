import Mathlib.Algebra.GroupWithZero.Nat
import Mathlib.Logic.Function.Iterate
import Mathlib.Tactic.SplitIfs

namespace Wirth.Kernel.Xhci

def kTrbTypeLink : UInt32 := 6

def kTrbCycle : UInt32 := 1

def kTrbLinkTc : UInt32 := 2

structure Trb where
  parameter : UInt64
  status : UInt32
  control : UInt32
  deriving DecidableEq

def Trb.zero : Trb := ⟨0, 0, 0⟩

def Trb.cycle (trb : Trb) : Bool := trb.control &&& kTrbCycle != 0

def Trb.type (trb : Trb) : UInt32 := (trb.control >>> 10) &&& 0x3F

structure Ring where
  base : UInt64
  trbs : Nat → Trb
  size : Nat
  index : Nat
  cycle : Bool
  hasLink : Bool

def cycleBit (cycle : Bool) : UInt32 := if cycle then kTrbCycle else 0

def linkControl (cycle : Bool) : UInt32 := (kTrbTypeLink <<< 10) ||| kTrbLinkTc ||| cycleBit cycle

def linkTrb (base : UInt64) (cycle : Bool) : Trb := ⟨base, 0, linkControl cycle⟩

def ringInit (base : UInt64) (count : Nat) (link : Bool) : Ring where
  base := base
  trbs := if link then Function.update (fun _ => .zero) (count - 1) (linkTrb base true) else fun _ => .zero
  size := count
  index := 0
  cycle := true
  hasLink := link

def ringAllocTrb (r : Ring) : Ring × Nat :=
  let r :=
    if r.hasLink ∧ r.index ≥ r.size - 1 then
      { r with
        trbs := Function.update r.trbs (r.size - 1)
          { r.trbs (r.size - 1) with control := linkControl r.cycle }
        index := 0
        cycle := !r.cycle }
    else r
  ({ r with trbs := Function.update r.trbs r.index .zero, index := r.index + 1 }, r.index)

-- What a caller puts into an entry. All of them leave the cycle bit to the ring, and none of them
-- makes a link.
structure Work where
  parameter : UInt64
  status : UInt32
  control : UInt32
  noCycle : control &&& kTrbCycle = 0
  noLink : (control >>> 10) &&& 0x3F ≠ kTrbTypeLink

def Work.trb (work : Work) (cycle : Bool) : Trb :=
  ⟨work.parameter, work.status, work.control ||| cycleBit cycle⟩

-- The entry is filled with the cycle bit that the ring has after the allocation.
def enqueue (r : Ring) (work : Work) : Ring :=
  let (r, i) := ringAllocTrb r
  { r with trbs := Function.update r.trbs i (work.trb r.cycle) }

structure Consumer where
  index : Nat
  cycle : Bool

inductive Seen where
  | nothing
  | link
  | taken (trb : Trb)

-- An entry is taken if its cycle bit is the consumer's. A link leads to the entry at its address and
-- may toggle the cycle.
def consume (r : Ring) (c : Consumer) : Consumer × Seen :=
  let trb := r.trbs c.index
  if trb.cycle ≠ c.cycle then (c, .nothing)
  else if trb.type = kTrbTypeLink then
    (⟨((trb.parameter - r.base) / 16).toNat,
      if trb.control &&& kTrbLinkTc ≠ 0 then !c.cycle else c.cycle⟩, .link)
  else (⟨c.index + 1, c.cycle⟩, .taken trb)

-- Both ends, with what has been put in and what has been taken out so far.
structure Traffic where
  ring : Ring
  consumer : Consumer
  enqueued : List Trb
  consumed : List Trb

def Traffic.start (base : UInt64) (size : Nat) : Traffic :=
  ⟨ringInit base size true, ⟨0, true⟩, [], []⟩

def Traffic.enqueue (t : Traffic) (work : Work) : Traffic :=
  { t with
    ring := Xhci.enqueue t.ring work
    enqueued := t.enqueued ++ [work.trb (ringAllocTrb t.ring).1.cycle] }

def Traffic.consume (t : Traffic) : Traffic :=
  match Xhci.consume t.ring t.consumer with
  | (c, .taken trb) => { t with consumer := c, consumed := t.consumed ++ [trb] }
  | (c, _) => { t with consumer := c }

-- Any interleaving in which at most `size - 2` entries are outstanding.
inductive Traffic.Reached (base : UInt64) (size : Nat) : Traffic → Prop where
  | start : Reached base size (.start base size)
  | enqueue {t : Traffic} (work : Work) (h : Reached base size t)
      (hroom : t.enqueued.length + 1 ≤ t.consumed.length + (size - 2)) : Reached base size (t.enqueue work)
  | consume {t : Traffic} (h : Reached base size t) : Reached base size t.consume

section Bits

theorem and_or_cycleBit (c : UInt32) (cycle : Bool) (h : c &&& kTrbCycle = 0) :
    (c ||| cycleBit cycle) &&& kTrbCycle = cycleBit cycle := by
  have hnat : c.toNat &&& kTrbCycle.toNat = 0 := by
    rw [← UInt32.toNat_and, h]
    rfl
  rw [← UInt32.toNat_inj, UInt32.toNat_and, UInt32.toNat_or, Nat.and_or_distrib_right, hnat,
    Nat.zero_or, ← UInt32.toNat_and]
  cases cycle <;> rfl

theorem shiftRight_or_cycleBit (c : UInt32) (cycle : Bool) :
    (c ||| cycleBit cycle) >>> 10 = c >>> 10 := by
  rw [UInt32.shiftRight_or]
  have hzero : cycleBit cycle >>> 10 = 0 := by cases cycle <;> rfl
  rw [hzero, UInt32.or_zero]

theorem Work.trb_cycle (work : Work) (cycle : Bool) : (work.trb cycle).cycle = cycle := by
  rw [Trb.cycle, Work.trb, and_or_cycleBit _ _ work.noCycle]
  cases cycle <;> rfl

theorem Work.trb_type (work : Work) (cycle : Bool) : (work.trb cycle).type ≠ kTrbTypeLink := by
  rw [Trb.type, Work.trb, shiftRight_or_cycleBit]
  exact work.noLink

theorem linkTrb_cycle (base : UInt64) (cycle : Bool) : (linkTrb base cycle).cycle = cycle := by
  change (linkControl cycle &&& kTrbCycle != 0) = cycle
  cases cycle <;> decide

theorem linkTrb_type (base : UInt64) (cycle : Bool) : (linkTrb base cycle).type = kTrbTypeLink := by
  change (linkControl cycle >>> 10) &&& 0x3F = kTrbTypeLink
  cases cycle <;> decide

theorem linkTrb_toggles (base : UInt64) (cycle : Bool) :
    (linkTrb base cycle).control &&& kTrbLinkTc ≠ 0 := by
  change linkControl cycle &&& kTrbLinkTc ≠ 0
  cases cycle <;> decide

end Bits

def lapCycle (lap : Nat) : Bool := lap % 2 = 0

theorem lapCycle_succ (lap : Nat) : lapCycle (lap + 1) = !lapCycle lap := by
  grind [lapCycle]

theorem lapCycle_ne (lap : Nat) : lapCycle lap ≠ lapCycle (lap + 1) := by
  grind [lapCycle]

structure Holds (r : Ring) (enqueued : List Trb) (lap place : Nat) : Prop where
  entry : enqueued[lap * (r.size - 1) + place]? = some (r.trbs place)
  cycle : (r.trbs place).cycle = lapCycle lap
  type : (r.trbs place).type ≠ kTrbTypeLink

-- The driver's end in its current lap. The places before its index are from this lap, those behind
-- it from the lap before, and the link was last written at the end of that one.
structure Filled (r : Ring) (enqueued : List Trb) (lap : Nat) : Prop where
  size : 3 ≤ r.size
  linked : r.hasLink = true
  length : enqueued.length = lap * (r.size - 1) + r.index
  index_le : r.index ≤ r.size - 1
  index_pos : lap ≠ 0 → 0 < r.index
  cycle : r.cycle = lapCycle lap
  recent : ∀ place < r.index, Holds r enqueued lap place
  older : ∀ place, r.index ≤ place → place < r.size - 1 →
    lap = 0 ∧ r.trbs place = .zero ∨ ∃ before, lap = before + 1 ∧ Holds r enqueued before place
  link : r.trbs (r.size - 1) = linkTrb r.base (lapCycle (lap - 1))

structure Drained (r : Ring) (c : Consumer) (enqueued consumed : List Trb) (lap : Nat) : Prop where
  length : consumed.length = lap * (r.size - 1) + c.index
  index_le : c.index ≤ r.size - 1
  cycle : c.cycle = lapCycle lap
  taken : consumed = enqueued.take consumed.length
  behind : consumed.length ≤ enqueued.length
  room : enqueued.length ≤ consumed.length + (r.size - 2)

section Producer

variable {r : Ring} {enqueued : List Trb} {lap : Nat}

theorem ringAllocTrb_inside (h : r.index < r.size - 1) : ringAllocTrb r =
    ({ r with trbs := Function.update r.trbs r.index .zero, index := r.index + 1 }, r.index) := by
  rw [ringAllocTrb, if_neg (fun hwrap => absurd hwrap.2 (by omega))]

theorem ringAllocTrb_wrap (hlink : r.hasLink = true) (h : r.size - 1 ≤ r.index) : ringAllocTrb r =
    ({ r with
      trbs := Function.update (Function.update r.trbs (r.size - 1)
        { r.trbs (r.size - 1) with control := linkControl r.cycle }) 0 .zero
      index := 1
      cycle := !r.cycle }, 0) := by
  rw [ringAllocTrb, if_pos ⟨hlink, h⟩]

theorem Holds.mono {r' : Ring} {place : Nat} (h : Holds r enqueued lap place) (trb : Trb)
    (hsize : r'.size = r.size) (htrb : r'.trbs place = r.trbs place) :
    Holds r' (enqueued ++ [trb]) lap place := by
  obtain ⟨hlt, -⟩ := List.getElem?_eq_some_iff.mp h.entry
  refine ⟨?_, by rw [htrb, h.cycle], by rw [htrb]; exact h.type⟩
  rw [hsize, htrb, List.getElem?_append_left hlt, h.entry]

theorem holds_new {r' : Ring} {place : Nat} {work : Work} {cycle : Bool}
    (hlength : enqueued.length = lap * (r'.size - 1) + place) (hcycle : cycle = lapCycle lap)
    (htrb : r'.trbs place = work.trb cycle) :
    Holds r' (enqueued ++ [work.trb cycle]) lap place := by
  refine ⟨?_, by rw [htrb, work.trb_cycle, hcycle], by rw [htrb]; exact work.trb_type cycle⟩
  grind

theorem Filled.start (base : UInt64) {size : Nat} (hsize : 3 ≤ size) :
    Filled (ringInit base size true) [] 0 := by
  have htrbs : (ringInit base size true).trbs =
      Function.update (fun _ => .zero) (size - 1) (linkTrb base true) := rfl
  refine ⟨hsize, rfl, ?_, Nat.zero_le _, fun h => absurd rfl h, rfl, fun k hk => absurd hk (Nat.not_lt_zero k), fun place _ hplace => ?_, ?_⟩
  · rw [Nat.zero_mul]
    rfl
  · refine .inl ⟨rfl, ?_⟩
    have hne : place ≠ size - 1 := Nat.ne_of_lt hplace
    rw [htrbs, Function.update_of_ne hne]
  · rw [htrbs]
    exact Function.update_self ..

theorem Filled.enqueue_inside (h : Filled r enqueued lap) (work : Work) (hindex : r.index < r.size - 1) :
    Filled (enqueue r work) (enqueued ++ [work.trb (ringAllocTrb r).1.cycle]) lap := by
  have hring : enqueue r work =
      { r with trbs := Function.update r.trbs r.index (work.trb r.cycle), index := r.index + 1 } := by
    rw [enqueue, ringAllocTrb_inside hindex]
    simp only [Function.update_idem]
  have hcycle : (ringAllocTrb r).1.cycle = r.cycle := by rw [ringAllocTrb_inside hindex]
  have hkeeps : ∀ place, place ≠ r.index →
      Function.update r.trbs r.index (work.trb r.cycle) place = r.trbs place :=
    fun place hplace => Function.update_of_ne hplace ..
  rw [hring, hcycle]
  refine ⟨h.size, h.linked, ?_, Nat.succ_le_of_lt hindex, fun _ => Nat.succ_pos _, h.cycle,
    fun place hplace => ?_, fun place hlow hhigh => ?_, ?_⟩
  · rw [List.length_append, h.length]
    rfl
  · by_cases hnew : place = r.index
    · rw [hnew]
      exact holds_new h.length h.cycle (Function.update_self ..)
    · have hold : place < r.index := Nat.lt_of_le_of_ne (Nat.le_of_lt_succ hplace) hnew
      exact (h.recent place hold).mono _ rfl (hkeeps place hnew)
  · have hne : place ≠ r.index := Nat.ne_of_gt hlow
    rcases h.older place (Nat.le_of_succ_le hlow) hhigh with ⟨hlap, hzero⟩ | ⟨before, hlap, hholds⟩
    · simp [hlap, hne, hzero]
    · exact .inr ⟨before, hlap, hholds.mono _ rfl (hkeeps place hne)⟩
  · exact (hkeeps _ (Nat.ne_of_gt hindex)).trans h.link

-- At the end of a lap the link is written, and the entry is the first one of the next lap.
theorem Filled.enqueue_wrap (h : Filled r enqueued lap) (work : Work) (hindex : r.index = r.size - 1) :
    Filled (enqueue r work) (enqueued ++ [work.trb (ringAllocTrb r).1.cycle]) (lap + 1) := by
  have halloc := ringAllocTrb_wrap h.linked (Nat.le_of_eq hindex.symm)
  have hlast : { r.trbs (r.size - 1) with control := linkControl r.cycle } =
      linkTrb r.base (lapCycle lap) := by rw [h.link, h.cycle]; rfl
  rw [hlast] at halloc
  have hring : enqueue r work =
      { r with
        trbs := Function.update (Function.update r.trbs (r.size - 1) (linkTrb r.base (lapCycle lap))) 0
          (work.trb !r.cycle)
        index := 1
        cycle := !r.cycle } := by
    rw [enqueue, halloc]
    simp only [Function.update_idem]
  have hcycle : (ringAllocTrb r).1.cycle = !r.cycle := by rw [halloc]
  have hnext : (!r.cycle) = lapCycle (lap + 1) := by rw [h.cycle, lapCycle_succ]
  have hsize := h.size
  have hlength : enqueued.length = (lap + 1) * (r.size - 1) + 0 := by
    rw [h.length, hindex, Nat.add_mul, Nat.one_mul]
    rfl
  rw [hring, hcycle]
  refine ⟨h.size, h.linked, ?_, ?_, fun _ => Nat.one_pos, hnext, fun place hplace => ?_,
    fun place hlow hhigh => ?_, ?_⟩
  · rw [List.length_append, hlength]
    rfl
  · change 1 ≤ r.size - 1
    omega
  · grind [holds_new]
  · have hplace : place < r.size - 1 := hhigh
    refine .inr ⟨lap, rfl, (h.recent place (by omega)).mono _ rfl ?_⟩
    grind
  grind

end Producer

section Consumer

variable {r : Ring} {c : Consumer} {enqueued consumed : List Trb} {lap clap : Nat}

-- The two ends are in the same lap or the driver is one ahead. The controller is ahead only when it
-- has followed the link and there is nothing to take.
theorem laps (h : Filled r enqueued lap) (hc : Drained r c enqueued consumed clap) :
    lap = clap ∨ lap = clap + 1 ∨ clap = lap + 1 ∧ c.index = 0 ∧ r.index = r.size - 1 := by
  have hsize := h.size
  have hlength := h.length
  have hindex := h.index_le
  have htaken := hc.length
  have hcindex := hc.index_le
  have hbehind := hc.behind
  have hroom := hc.room
  rcases Nat.lt_trichotomy lap clap with hlt | heq | hgt
  · have hmul := Nat.mul_le_mul_right (r.size - 1) (Nat.succ_le_of_lt hlt)
    rw [Nat.succ_mul] at hmul
    have hclap : ¬lap + 2 ≤ clap := by
      intro htwo
      have hmul := Nat.mul_le_mul_right (r.size - 1) htwo
      rw [Nat.add_mul] at hmul
      omega
    omega
  · exact .inl heq
  · have hclap : ¬clap + 2 ≤ lap := by
      intro htwo
      have hmul := Nat.mul_le_mul_right (r.size - 1) htwo
      rw [Nat.add_mul] at hmul
      omega
    exact .inr (.inl (by omega))

theorem Filled.next (h : Filled r enqueued lap) (hc : Drained r c enqueued consumed clap)
    (hindex : c.index < r.size - 1) (hmore : consumed.length < enqueued.length) :
    Holds r enqueued clap c.index := by
  have hlength := h.length
  have htaken := hc.length
  have hroom := hc.room
  rcases laps h hc with rfl | rfl | ⟨rfl, hzero, hfull⟩
  · exact h.recent c.index (by omega)
  · rw [Nat.add_mul] at hlength
    rcases h.older c.index (by omega) hindex with ⟨hlap, -⟩ | ⟨before, hlap, hholds⟩
    · omega
    grind
  · rw [Nat.add_mul] at htaken
    omega

theorem Filled.stale (h : Filled r enqueued lap) (hc : Drained r c enqueued consumed clap)
    (hindex : c.index < r.size - 1) (hall : consumed.length = enqueued.length) :
    (r.trbs c.index).cycle ≠ c.cycle := by
  have hlength := h.length
  have htaken := hc.length
  rw [hc.cycle]
  rcases laps h hc with rfl | rfl | ⟨rfl, hzero, hfull⟩
  · rcases h.older c.index (by omega) hindex with ⟨hlap, hzero⟩ | ⟨before, hlap, hholds⟩
    · rw [hzero, hlap]
      decide
    · rw [hholds.cycle, hlap]
      exact lapCycle_ne before
  · grind
  · rw [(h.recent c.index (by omega)).cycle]
    exact lapCycle_ne lap

theorem Filled.link_open (h : Filled r enqueued lap) (hc : Drained r c enqueued consumed clap)
    (hindex : c.index = r.size - 1) (hmore : consumed.length < enqueued.length) :
    (r.trbs c.index).cycle = c.cycle := by
  have hlength := h.length
  have htaken := hc.length
  have hle := h.index_le
  rw [hindex, h.link, linkTrb_cycle, hc.cycle]
  grind [laps]

theorem consume_nothing (h : (r.trbs c.index).cycle ≠ c.cycle) : consume r c = (c, .nothing) := if_pos h

theorem consume_taken (hcycle : (r.trbs c.index).cycle = c.cycle)
    (htype : (r.trbs c.index).type ≠ kTrbTypeLink) :
    consume r c = (⟨c.index + 1, c.cycle⟩, .taken (r.trbs c.index)) := by
  rw [consume, if_neg (not_not_intro hcycle), if_neg htype]

theorem consume_link {cycle : Bool} (hlink : r.trbs c.index = linkTrb r.base cycle)
    (hcycle : (r.trbs c.index).cycle = c.cycle) : consume r c = (⟨0, !c.cycle⟩, .link) := by
  rw [consume, if_neg (not_not_intro hcycle), hlink, if_pos (linkTrb_type r.base cycle),
    if_pos (linkTrb_toggles r.base cycle)]
  simp [linkTrb]

theorem Drained.take (hc : Drained r c enqueued consumed clap) (hindex : c.index < r.size - 1)
    (hholds : Holds r enqueued clap c.index) :
    Drained r ⟨c.index + 1, c.cycle⟩ enqueued (consumed ++ [r.trbs c.index]) clap := by
  have hentry := hholds.entry
  rw [← hc.length] at hentry
  obtain ⟨hlt, -⟩ := List.getElem?_eq_some_iff.mp hentry
  have hroom := hc.room
  have hlen : (consumed ++ [r.trbs c.index]).length = consumed.length + 1 := by
    rw [List.length_append, List.length_singleton]
  refine ⟨?_, hindex, hc.cycle, ?_, ?_, ?_⟩
  · rw [hlen, hc.length]
    rfl
  · rw [hlen, List.take_add_one, ← hc.taken, hentry]
    rfl
  · rw [hlen]
    exact hlt
  · omega

theorem Drained.follow (hc : Drained r c enqueued consumed clap) (hindex : c.index = r.size - 1) :
    Drained r ⟨0, !c.cycle⟩ enqueued consumed (clap + 1) := by
  refine ⟨?_, Nat.zero_le _, by rw [hc.cycle, lapCycle_succ], hc.taken, hc.behind, hc.room⟩
  rw [hc.length, hindex, Nat.add_mul, Nat.one_mul]
  rfl

end Consumer

def Traffic.Inv (t : Traffic) (size : Nat) : Prop :=
  t.ring.size = size ∧ ∃ lap clap, Filled t.ring t.enqueued lap ∧
    Drained t.ring t.consumer t.enqueued t.consumed clap

section Run

variable {t : Traffic} {size : Nat}

theorem Traffic.Inv.enqueue (h : t.Inv size) (work : Work)
    (hroom : t.enqueued.length + 1 ≤ t.consumed.length + (size - 2)) : (t.enqueue work).Inv size := by
  obtain ⟨rfl, lap, clap, hfilled, hc⟩ := h
  have hsize : (Xhci.enqueue t.ring work).size = t.ring.size := by
    rw [Xhci.enqueue, ringAllocTrb]
    split_ifs <;> rfl
  have hdrained : Drained (Xhci.enqueue t.ring work) t.consumer
      (t.enqueued ++ [work.trb (ringAllocTrb t.ring).1.cycle]) t.consumed clap := by
    refine ⟨?_, ?_, hc.cycle, ?_, ?_, ?_⟩
    · rw [hsize]
      exact hc.length
    · rw [hsize]
      exact hc.index_le
    · rw [List.take_append_of_le_length hc.behind]
      exact hc.taken
    · rw [List.length_append]
      exact Nat.le_add_right_of_le hc.behind
    · rw [hsize, List.length_append]
      exact hroom
  refine ⟨hsize, ?_⟩
  rcases Nat.lt_or_ge t.ring.index (t.ring.size - 1) with hinside | hend
  · exact ⟨lap, clap, hfilled.enqueue_inside work hinside, hdrained⟩
  · exact ⟨lap + 1, clap, hfilled.enqueue_wrap work (Nat.le_antisymm hfilled.index_le hend), hdrained⟩

-- A step of the controller. If there is something to take, it takes the next entry or follows the
-- link before it.
theorem Traffic.Inv.consume (h : t.Inv size) : t.consume.Inv size ∧ t.consume.enqueued = t.enqueued ∧
    (t.consumed.length < t.enqueued.length →
      t.consume.consumed.length = t.consumed.length + 1 ∨
        t.consume.consumer.index = 0 ∧ t.consume.consumed = t.consumed) := by
  obtain ⟨rfl, lap, clap, hfilled, hc⟩ := h
  rw [Traffic.consume]
  rcases Nat.lt_or_ge t.consumer.index (t.ring.size - 1) with hinside | hend
  · rcases Nat.lt_or_eq_of_le hc.behind with hmore | hall
    · have hnext := hfilled.next hc hinside hmore
      rw [consume_taken (hnext.cycle.trans hc.cycle.symm) hnext.type]
      refine ⟨⟨rfl, lap, clap, hfilled, hc.take hinside hnext⟩, rfl, fun _ => .inl ?_⟩
      exact List.length_append ..
    · rw [consume_nothing (hfilled.stale hc hinside hall)]
      exact ⟨⟨rfl, lap, clap, hfilled, hc⟩, rfl, fun hmore => absurd hall (Nat.ne_of_lt hmore)⟩
  · have hindex := Nat.le_antisymm hc.index_le hend
    by_cases hcycle : (t.ring.trbs t.consumer.index).cycle = t.consumer.cycle
    · rw [consume_link (hindex ▸ hfilled.link) hcycle]
      exact ⟨⟨rfl, lap, clap + 1, hfilled, hc.follow hindex⟩, rfl, fun _ => .inr ⟨rfl, rfl⟩⟩
    · rw [consume_nothing hcycle]
      refine ⟨⟨rfl, lap, clap, hfilled, hc⟩, rfl, fun hmore => ?_⟩
      exact absurd (hfilled.link_open hc hindex hmore) hcycle

theorem Traffic.Reached.inv {base : UInt64} (hsize : 3 ≤ size) (h : Reached base size t) : t.Inv size := by
  induction h with
  | start =>
    refine ⟨rfl, 0, 0, .start base hsize, ?_, Nat.zero_le _, rfl, rfl, Nat.le_refl _, Nat.zero_le _⟩
    rw [Nat.zero_mul]
    rfl
  | enqueue work _ hroom ih => exact ih.enqueue work hroom
  | consume _ ih => exact ih.consume.1

theorem Traffic.Inv.progress (h : t.Inv size) (hsize : 3 ≤ size)
    (hmore : t.consumed.length < t.enqueued.length) :
    ∃ t', (t' = t.consume ∨ t' = t.consume.consume) ∧ t'.Inv size ∧ t'.enqueued = t.enqueued ∧
      t'.consumed.length = t.consumed.length + 1 := by
  obtain ⟨hinv, hsame, hstep⟩ := h.consume
  rcases hstep hmore with htaken | ⟨hindex, hconsumed⟩
  · exact ⟨_, .inl rfl, hinv, hsame, htaken⟩
  · obtain ⟨hinv', hsame', -⟩ := hinv.consume
    obtain ⟨hring, lap, clap, hfilled, hc⟩ := hinv
    have hinside : t.consume.consumer.index < t.consume.ring.size - 1 := by omega
    have hmore' : t.consume.consumed.length < t.consume.enqueued.length := by
      rw [hconsumed, hsame]
      exact hmore
    have hnext := hfilled.next hc hinside hmore'
    refine ⟨_, .inr rfl, hinv', hsame'.trans hsame, ?_⟩
    rw [Traffic.consume, consume_taken (hnext.cycle.trans hc.cycle.symm) hnext.type, ← hconsumed]
    exact List.length_append ..

theorem Traffic.Inv.drains (h : t.Inv size) (hsize : 3 ≤ size) :
    ∃ k, (Traffic.consume^[k] t).consumed = t.enqueued := by
  obtain ⟨n, hn⟩ : ∃ n, t.enqueued.length = t.consumed.length + n := by
    obtain ⟨-, -, clap, -, hc⟩ := h
    exact Nat.exists_eq_add_of_le hc.behind
  induction n generalizing t with
  | zero =>
    obtain ⟨-, -, clap, -, hc⟩ := h
    refine ⟨0, ?_⟩
    rw [Function.iterate_zero, id, hc.taken]
    exact List.take_of_length_le (by omega)
  | succ n ih =>
    obtain ⟨t', ht', hinv, hsame, hlength⟩ := h.progress hsize (by omega)
    obtain ⟨k, hk⟩ := ih hinv (by rw [hsame, hlength]; omega)
    rw [hsame] at hk
    rcases ht' with rfl | rfl
    · exact ⟨k + 1, hk⟩
    · exact ⟨k + 2, hk⟩

end Run

-- What the controller has taken is a beginning of what the driver has put in, and it gets to the end
-- of it.
theorem ring_in_order {base : UInt64} {size : Nat} (hsize : 3 ≤ size) {t : Traffic}
    (h : Traffic.Reached base size t) :
    t.consumed <+: t.enqueued ∧ ∃ k, (Traffic.consume^[k] t).consumed = t.enqueued := by
  have hinv := h.inv hsize
  refine ⟨?_, hinv.drains hsize⟩
  obtain ⟨-, -, clap, -, hc⟩ := hinv
  rw [hc.taken]
  exact List.take_prefix ..

-- The smallest ring, with one entry at a time, in its second lap.
def someWork : Work := ⟨0x1000, 512, 0x420, by decide, by decide⟩

def secondLap : Traffic :=
  ((((Traffic.start 0x2000 3).enqueue someWork).consume.enqueue someWork).consume.enqueue someWork)

theorem secondLap_reached : Traffic.Reached 0x2000 3 secondLap := by
  refine .enqueue _ (.consume (.enqueue _ (.consume (.enqueue _ .start ?_)) ?_)) ?_
  · decide
  · decide +kernel
  · decide +kernel

theorem secondLap_in_order : secondLap.enqueued.length = 3 ∧ secondLap.consumed <+: secondLap.enqueued ∧
    ∃ k, (Traffic.consume^[k] secondLap).consumed = secondLap.enqueued :=
  ⟨by decide +kernel, ring_in_order (by decide) secondLap_reached⟩

end Wirth.Kernel.Xhci

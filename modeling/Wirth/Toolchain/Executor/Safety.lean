import Wirth.Toolchain.Executor.Decode
import Wirth.Toolchain.Executor.Modes

namespace Wirth.Toolchain.Executor

open Wirth.Lib Wirth.Toolchain.Json Wirth.Toolchain.Linker

structure Machine.Valid (m : Machine) : Prop where
  mem : m.mem.length = memorySize
  regs : m.regs.length = registerCount

def fetchSize (op : UInt8) : Int :=
  if op = 0x10 ∨ op = 0x11 ∨ op = 0x12 ∨ op = 0x31 ∨ op = 0x32 then 4
  else if op = 0x20 ∨ op = 0x21 ∨ op = 0x22 ∨ op = 0x23 ∨ op = 0x24 ∨ op = 0x30 then 3
  else if op = 0x40 then 2
  else 1

-- The registers and the data that an instruction uses exist. A division by zero throws
-- before the dividend is read.
def Instr.InRange (m : Machine) : Instr → Prop
  | .nop | .halt | .ret | .jmp _ => True
  | .loadi r _ | .jz r _ | .jnz r _ | .print r => r < registerCount
  | .load r addr | .store r addr => r < registerCount ∧ 0 ≤ addr ∧ addr + 1 < memorySize
  | .add a b | .sub a b | .mul a b | .mov a b => a < registerCount ∧ b < registerCount
  | .div a b => b < registerCount ∧ (m.regs[b]? = some 0 ∨ a < registerCount)

structure StepInRange (m : Machine) : Prop where
  fetch : 0 ≤ m.pc ∧ m.pc + fetchSize (m.mem.getD m.pc.toNat 0) ≤ memorySize
  access : ∀ instr, decode m.mem m.pc = .ok instr → instr.InRange m

theorem fetchSize_pos (op : UInt8) : 1 ≤ fetchSize op := by
  unfold fetchSize
  split_ifs <;> decide

section Operands

variable {mem : List UInt8} {pc : Int} (h0 : 0 ≤ pc)

include h0

theorem oneRegister_faults (make : Nat → Instr) :
    Faults (oneRegister mem pc make) ↔ ¬(pc + 2 ≤ mem.length) := by
  simp only [oneRegister, faults_bind, load_faults, not_faults_ok, and_false, exists_false,
    or_false]
  omega

theorem twoRegisters_faults (make : Nat → Nat → Instr) :
    Faults (twoRegisters mem pc make) ↔ ¬(pc + 3 ≤ mem.length) := by
  simp only [twoRegisters, faults_bind, load_faults, load_eq_ok, not_faults_ok, and_false,
    exists_false, or_false]
  grind

theorem registerAndWord_faults (make : Nat → Int → Instr) :
    Faults (registerAndWord mem pc make) ↔ ¬(pc + 4 ≤ mem.length) := by
  simp only [registerAndWord, faults_bind, load_faults, loadU16_faults, load_eq_ok,
    not_faults_ok, and_false, exists_false, or_false]
  grind

end Operands

theorem decode_faults {mem : List UInt8} {pc : Int} :
    Faults (decode mem pc) ↔
      ¬(0 ≤ pc ∧ pc + fetchSize (mem.getD pc.toNat 0) ≤ mem.length) := by
  have hpos := fetchSize_pos (mem.getD pc.toNat 0)
  by_cases hpc : 0 ≤ pc ∧ pc < mem.length
  swap
  · have hload : Faults (load mem pc) := load_faults.mpr hpc
    rw [decode, faults_bind]
    exact iff_of_true (Or.inl hload) (by omega)
  have hload : load mem pc = .ok (mem.getD pc.toNat 0) := load_eq_ok.mpr ⟨hpc, rfl⟩
  rw [decode, hload, ok_bind]
  generalize mem.getD pc.toNat 0 = op at hpos
  have hsize : pc + fetchSize op ≤ mem.length ↔ 0 ≤ pc ∧ pc + fetchSize op ≤ mem.length := by
    omega
  rw [← hsize]
  unfold fetchSize
  by_cases h4 : op = 0x10 ∨ op = 0x11 ∨ op = 0x12 ∨ op = 0x31 ∨ op = 0x32
  · rcases h4 with rfl | rfl | rfl | rfl | rfl <;> exact registerAndWord_faults hpc.1 _
  rw [if_neg h4]
  by_cases h3 : op = 0x20 ∨ op = 0x21 ∨ op = 0x22 ∨ op = 0x23 ∨ op = 0x24 ∨ op = 0x30
  · rw [if_pos h3]
    rcases h3 with rfl | rfl | rfl | rfl | rfl | rfl
    iterate 5 exact twoRegisters_faults hpc.1 _
    · show Faults (loadU16 mem (pc + 1) >>= fun w => .ok (Instr.jmp w)) ↔ _
      simp only [faults_bind, loadU16_faults, not_faults_ok, and_false, exists_false, or_false]
      omega
  rw [if_neg h3]
  by_cases h2 : op = 0x40
  · simp [oneRegister_faults, h2, hpc]
  simp only [not_or] at h4 h3
  simp only [h4, h3, h2, if_false]
  have hone : pc + 1 ≤ mem.length := by omega
  split_ifs <;> simp [hone]

variable {regs : List Int} {r : Nat}

theorem readReg_faults :
    Faults (readReg regs r) ↔ ¬r < regs.length := by
  unfold readReg
  by_cases h : r < regs.length <;> simp [h]

theorem writeReg_faults {x : Int} :
    Faults (writeReg regs r x) ↔ ¬r < regs.length := by
  unfold writeReg
  split_ifs with h <;> simp [h]

theorem readReg_ok (h : r < regs.length) :
    readReg regs r = .ok regs[r] := by
  rw [readReg_eq_ok, List.getElem?_eq_getElem h]

section Execute

variable {m : Machine} (hv : m.Valid)

include hv

theorem arithmetic_faults (f : Int → Int → Int) (a b : Nat) :
    Faults (arithmetic f a b m) ↔ ¬(a < registerCount ∧ b < registerCount) := by
  by_cases ha : a < m.regs.length
  · by_cases hb : b < m.regs.length
    · simp [arithmetic, readReg_ok ha, readReg_ok hb, faults_bind, writeReg_faults, ← hv.regs, ha,
        hb]
    · have hfault : Faults (readReg m.regs b) := readReg_faults.mpr hb
      simp [arithmetic, readReg_ok ha, faults_bind, hfault, ← hv.regs, hb]
  · have hfault : Faults (readReg m.regs a) := readReg_faults.mpr ha
    simp [arithmetic, faults_bind, hfault, ← hv.regs, ha]

theorem readReg_then_faults (r : Nat) (f : Int → Effect) :
    Faults (readReg m.regs r >>= fun x => .ok (f x)) ↔ ¬r < registerCount := by
  simp [faults_bind, readReg_faults, hv.regs]

theorem execute_faults (instr : Instr) : Faults (execute instr m) ↔ ¬instr.InRange m := by
  cases instr with
  | nop | halt | jmp => simp [execute, Instr.InRange]
  | ret =>
    have hzero : 0 < registerCount := by decide
    show Faults (readReg m.regs 0 >>= fun x => .ok (Effect.stop (x % 256))) ↔ _
    rw [readReg_then_faults hv 0]
    simp [Instr.InRange, hzero]
  | loadi r imm => simp [execute, Instr.InRange, faults_bind, writeReg_faults, hv.regs]
  | load r addr =>
    by_cases haddr : 0 ≤ addr ∧ addr + 1 < m.mem.length
    · have hload := loadU16_eq_ok.mpr ⟨haddr, rfl⟩
      rw [hv.mem] at haddr
      simp [execute, Instr.InRange, hload, faults_bind, writeReg_faults, hv.regs, haddr]
    · have hfault : Faults (loadU16 m.mem addr) := loadU16_faults.mpr haddr
      rw [hv.mem] at haddr
      simp [execute, faults_bind, Instr.InRange, hfault, haddr]
  | store r addr =>
    by_cases hr : r < m.regs.length
    · have hread := readReg_ok hr
      rw [hv.regs] at hr
      simp [execute, Instr.InRange, hread, faults_bind, storeU16_faults, hv.mem, hr]
    · have hfault : Faults (readReg m.regs r) := readReg_faults.mpr hr
      rw [hv.regs] at hr
      simp [execute, faults_bind, hfault, Instr.InRange, hr]
  | add a b | sub a b | mul a b => exact arithmetic_faults hv _ a b
  | div a b =>
    by_cases hb : b < m.regs.length
    · have hread := readReg_ok hb
      have hget := List.getElem?_eq_getElem hb
      have harith := arithmetic_faults hv Int.tdiv a b
      rw [hv.regs] at hb
      by_cases hzero : m.regs[b] = 0
      · simp [execute, hread, hzero, Instr.InRange, hb, hget]
      · simp [execute, hread, hzero, Instr.InRange, hb, hget, harith]
    · have hfault : Faults (readReg m.regs b) := readReg_faults.mpr hb
      rw [hv.regs] at hb
      simp [execute, faults_bind, hfault, Instr.InRange, hb]
  | mov a b =>
    by_cases hb : b < m.regs.length
    · have hread := readReg_ok hb
      rw [hv.regs] at hb
      simp [execute, hread, faults_bind, writeReg_faults, hv.regs, Instr.InRange, hb]
    · have hfault : Faults (readReg m.regs b) := readReg_faults.mpr hb
      rw [hv.regs] at hb
      simp [execute, faults_bind, hfault, Instr.InRange, hb]
  | jz r addr | jnz r addr | print r => exact readReg_then_faults hv r _

-- A step accesses something that does not exist exactly when its state is out of range.
theorem step_faults : Faults (step m) ↔ ¬StepInRange m := by
  rw [step, faults_bind, decode_faults, hv.mem]
  constructor
  · rintro (hfetch | ⟨instr, hinstr, hexec⟩) hin
    · exact hfetch hin.fetch
    · exact (execute_faults hv instr).mp hexec (hin.access instr hinstr)
  · intro hout
    by_cases hfetch : 0 ≤ m.pc ∧ m.pc + fetchSize (m.mem.getD m.pc.toNat 0) ≤ memorySize
    · right
      by_contra hnone
      refine hout ⟨hfetch, fun instr hinstr => ?_⟩
      grind [execute_faults]
    · exact Or.inl hfetch

end Execute

theorem step_valid {m m' : Machine} {printed : Option Int} (hv : m.Valid)
    (h : step m = .ok (.next m' printed)) : m'.Valid := by
  obtain ⟨instr, _, hexec⟩ := bind_eq_ok.mp h
  have hnext := execute_advances hexec
  exact ⟨hnext.mem.trans hv.mem, hnext.regs.trans hv.regs⟩

inductive Steps : Nat → Machine → Machine → Prop
  | zero (m : Machine) : Steps 0 m m
  | succ {n : Nat} {m mid m' : Machine} {printed : Option Int}
      (h : step m = .ok (.next mid printed)) (hrest : Steps n mid m') : Steps (n + 1) m m'

theorem runFrom_faults (maxSteps : Int) (left : Nat) (steps : Int) {m : Machine}
    (output : List Int) (hv : m.Valid) :
    Faults (runFrom maxSteps left steps m output).result ↔
      ∃ k < left, ∃ m', Steps k m m' ∧ ¬StepInRange m' := by
  induction left generalizing steps m output with
  | zero => simp [runFrom]
  | succ left ih =>
    have hstep := step_faults hv
    rw [runFrom]
    constructor
    · intro h
      split at h
      · rename_i e he
        have hoob : e = .outOfBounds := by simpa [Faults] using h
        exact ⟨0, by omega, m, .zero m, hstep.mp (by rw [he, hoob]; exact faults_outOfBounds)⟩
      · simp at h
      · rename_i mid printed hnext
        obtain ⟨k, hk, m', hsteps, hbad⟩ := (ih _ _ (step_valid hv hnext)).mp h
        exact ⟨k + 1, by omega, m', .succ hnext hsteps, hbad⟩
    · rintro ⟨k, hk, m', hsteps, hbad⟩
      cases hsteps with
      | zero =>
        have hfault : step m = .error .outOfBounds := hstep.mpr hbad
        rw [hfault]
        exact faults_outOfBounds
      | succ hnext hrest =>
        grind [step_valid]

section Load

variable {D : Type}

theorem not_faults_atKey (obj : List (Str × Value D)) (key : Str) : ¬Faults (atKey obj key) := by
  unfold atKey
  split <;> simp

theorem not_faults_asObject (v : Value D) : ¬Faults v.asObject := by
  cases v <;> simp [Value.asObject, Value.badAccess]

theorem not_faults_asArray (v : Value D) : ¬Faults v.asArray := by
  cases v <;> simp [Value.asArray, Value.badAccess]

theorem not_faults_asString (v : Value D) : ¬Faults v.asString := by
  cases v <;> simp [Value.asString, Value.badAccess]

theorem not_faults_member {α : Type} {obj : List (Str × Value D)} {key : Str}
    {read : Value D → Result α} (h : ∀ v, ¬Faults (read v)) :
    ¬Faults (atKey obj key >>= read) := by
  simp [faults_bind, not_faults_atKey, h]

variable [Floating D]

theorem not_faults_asInt (v : Value D) : ¬Faults v.asInt := by
  cases v <;> simp [Value.asInt]

theorem not_faults_relocOffset (item : Value D) : ¬Faults (relocOffset item) := by
  rw [relocOffset, faults_bind]
  rintro (h | ⟨obj, _, h⟩)
  · exact not_faults_asObject item h
  · exact not_faults_member not_faults_asInt h

theorem not_faults_parseCode (items : List (Value D)) : ¬Faults (parseCode items) := by
  refine not_faults_mapM fun item _ => ?_
  simp [faults_bind, not_faults_asInt]

theorem not_faults_readPlan (image : List (Str × Value D)) (loadAddress : Option Int) :
    ¬Faults (readPlan image loadAddress) := by
  have hbase : ¬Faults (chooseBase image loadAddress) := by
    cases loadAddress with
    | some base => exact not_faults_ok base
    | none => exact not_faults_member not_faults_asInt
  simp only [readPlan, faults_bind]
  rintro (h | ⟨v, _, h | ⟨mode, _, h | ⟨v', _, h | ⟨items, _, h | ⟨code, _, h⟩⟩⟩⟩⟩)
  · exact not_faults_atKey _ _ h
  · exact not_faults_asString v h
  · exact not_faults_atKey _ _ h
  · exact not_faults_asArray v' h
  · exact not_faults_parseCode items h
  · split_ifs at h
    · rw [faults_bind] at h
      rcases h with h | ⟨_, _, h⟩
      · exact not_faults_member not_faults_asInt h
      · exact not_faults_ok _ h
    grind [faults_bind, not_faults_atKey, not_faults_asArray, not_faults_ok]

-- What loading needs of an image: every relocation that is reached lies inside the code, and
-- the address of the end of the image does not wrap around. An entry that cannot be read
-- ends the loading with an exception.
def LoadInRange (base size : Int) : List (Value D) → Prop
  | [] => 0 ≤ base → base + size ≤ memorySize ∨ memorySize < wrap64 (base + size)
  | item :: rest =>
      match relocOffset item with
      | .ok off => (0 ≤ off ∧ off + 2 ≤ size) ∧ LoadInRange base size rest
      | .error _ => True

variable {base : Int} {image : List (Str × Value D)} {code : List UInt8} {loadAddress : Option Int}

theorem placeInMemory_faults :
    Faults (placeInMemory base code) ↔
      ¬(0 ≤ base → base + code.length ≤ memorySize ∨ memorySize < wrap64 (base + code.length)) := by
  unfold placeInMemory
  split_ifs with h
  · simp only [not_faults_thrown, false_iff, not_not]
    omega
  · rw [copyTo_faults, List.length_replicate]
    omega

theorem loading_faults {items : List (Value D)} :
    Faults (items.foldlM (relocate base) code >>= placeInMemory base) ↔
      ¬LoadInRange base code.length items := by
  induction items generalizing code with
  | nil => exact placeInMemory_faults
  | cons item rest ih =>
    rw [List.foldlM_cons, bind_assoc, LoadInRange]
    cases hoff : relocOffset item with
    | error e =>
      have hnot := not_faults_relocOffset item
      rw [hoff] at hnot
      simp only [relocate, hoff, error_bind, not_true_eq_false, iff_false]
      simpa [Faults] using hnot
    | ok off =>
      rw [relocate_eq_update hoff]
      by_cases hin : 0 ≤ off ∧ off + 2 ≤ code.length
      · obtain ⟨code', hcode'⟩ := update_ok (u := (off, fun w => wrap64 (w + base))) hin
        grind [ok_bind, update_length]
      · have hfault : update code (off, fun w => wrap64 (w + base)) = .error .outOfBounds :=
          update_faults.mpr hin
        rw [hfault, error_bind]
        simp [hin]

theorem loadImage_faults :
    Faults (loadImage image loadAddress) ↔ ∃ plan, readPlan image loadAddress = .ok plan ∧
      ¬LoadInRange plan.base plan.code.length plan.relocations := by
  rw [loadImage, faults_bind, or_iff_right (not_faults_readPlan image loadAddress)]
  refine exists_congr fun plan => and_congr_right fun _ => ?_
  rw [← loading_faults, faults_bind, faults_bind]
  refine or_congr_right (exists_congr fun code => and_congr_right fun _ => ?_)
  rw [faults_bind]
  refine or_iff_left ?_
  rintro ⟨mem, _, h⟩
  rw [← bind_assoc, faults_bind] at h
  rcases h with h | ⟨entry, _, h⟩
  · exact not_faults_member not_faults_asInt h
  · exact not_faults_ok _ h

theorem loadImage_valid {m : Machine}
    (h : loadImage image loadAddress = .ok m) : m.Valid := by
  simp only [loadImage, bind_eq_ok, placeInMemory_eq_ok, Except.ok.injEq] at h
  obtain ⟨plan, _, code, _, mem, ⟨hin, rfl⟩, _, _, _, _, rfl⟩ := h
  refine ⟨?_, List.length_replicate⟩
  grind [splice_length]

end Load

-- The program `JMP 65535`. The last byte of the memory is a NOP, and after it the opcode is
-- fetched from behind the memory.

def lastByteImage : Image := ⟨absolute, 3, 0, 0, [48, 255, 255], [], []⟩

theorem lastByteImage_states : ∃ m, m.Valid ∧ ¬StepInRange { m with pc := 65536 } ∧
    loadImage (assigned (imageMembers lastByteImage : List (Str × Value Empty))) none = .ok m ∧
    Steps 2 m { m with pc := 65536 } := by
  have hreadable : Readable lastByteImage := ⟨by decide, by decide, by decide⟩
  obtain ⟨mem, hmem⟩ : ∃ mem, mem = splice (List.replicate memorySize 0) 0 [48, 255, 255] :=
    ⟨_, rfl⟩
  have hload : loadImage (assigned (imageMembers lastByteImage : List (Str × Value Empty))) none =
      .ok ⟨mem, List.replicate registerCount 0, 0⟩ := by
    rw [loadImage_absolute hreadable rfl]
    have hplace : placeInMemory lastByteImage.loadAddress lastByteImage.code = .ok mem :=
      placeInMemory_eq_ok.mpr ⟨by decide, hmem.symm⟩
    rw [hplace, ok_bind]
    rfl
  have hv := loadImage_valid hload
  have hlen : mem.length = 65536 := hv.mem
  have hroom : 0 + [(48 : UInt8), 255, 255].length ≤
      (List.replicate memorySize (0 : UInt8)).length := by
    rw [List.length_replicate]
    decide
  have hfirst : decode mem 0 = .ok (.jmp 65535) := by
    have hop : load mem 0 = .ok 48 :=
      load_eq_ok.mpr ⟨by omega, by rw [hmem, splice_getD hroom]; rfl⟩
    have hword : loadU16 mem 1 = .ok 65535 :=
      loadU16_eq_ok.mpr ⟨by omega, by rw [u16At, hmem, splice_getD hroom, splice_getD hroom]; rfl⟩
    simp [decode, hop, hword]
  have hlast : decode mem 65535 = .ok .nop := by
    have hop : load mem 65535 = .ok 0 := by
      refine load_eq_ok.mpr ⟨by omega, ?_⟩
      rw [hmem, splice_getD hroom, if_neg (by simp), replicate_zero_getD]
    simp [decode, hop]
  refine ⟨_, hv, ?_, hload, ?_⟩
  · intro h
    have hpos := fetchSize_pos (mem.getD 65536 0)
    have hle := h.fetch.2
    grind [memorySize]
  · have h1 : step ⟨mem, List.replicate registerCount 0, 0⟩ =
        .ok (.next ⟨mem, List.replicate registerCount 0, 65535⟩ none) := by
      rw [step, hfirst, ok_bind]
      rfl
    have h2 : step ⟨mem, List.replicate registerCount 0, 65535⟩ =
        .ok (.next ⟨mem, List.replicate registerCount 0, 65536⟩ none) := by
      rw [step, hlast, ok_bind]
      rfl
    exact .succ h1 (.succ h2 (.zero _))

end Wirth.Toolchain.Executor

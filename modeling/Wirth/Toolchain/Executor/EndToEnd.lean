import Wirth.Toolchain.Executor.Decode
import Wirth.Toolchain.Executor.Modes
import Wirth.Toolchain.ObjectRoundTrip

namespace Wirth.Toolchain.Executor

open Wirth.Lib Wirth.Toolchain.Json Wirth.Toolchain.Linker Wirth.Toolchain.Assembler

-- The halfword that an operand of the source stands for, once module `i` of an image has
-- been loaded at `b`.
inductive OperandValue (modules : List ModuleView) (i : Nat) (b : Int) (text : Str) : Int → Prop
  | literal {v : Int} (h : parseNumber text = .ok v) : OperandValue modules i b text (v % 65536)
  | symbolic {v : Int} (hn : isNumber text = false)
      (h : ∀ w, Denotes modules i text w ↔ w = v) :
      OperandValue modules i b text ((b + v) % 65536)

-- The registers and the halfword that the operands of a source instruction stand for.
inductive Reads (modules : List ModuleView) (i : Nat) (b : Int) :
    List Str → List Nat → Option Int → Prop
  | bare (args : List Str) : Reads modules i b args [] none
  | reg {a : Str} {r : Int} (ha : regIndex a = .ok r) : Reads modules i b [a] [r.toNat] none
  | regReg {a c : Str} {r q : Int} (ha : regIndex a = .ok r) (hc : regIndex c = .ok q) :
      Reads modules i b [a, c] [r.toNat, q.toNat] none
  | regWord {a text : Str} {r x : Int} (ha : regIndex a = .ok r)
      (hx : OperandValue modules i b text x) : Reads modules i b [a, text] [r.toNat] (some x)
  | word {text : Str} {x : Int} (hx : OperandValue modules i b text x) :
      Reads modules i b [text] [] (some x)

theorem toByte_register {a : Str} {r : Int} (ha : regIndex a = .ok r) :
    (toByte r).toNat = r.toNat := by
  have hr := regIndex_bounds ha
  have := toByte_toNat r
  omega

section Decode

variable {modules : List ModuleView} {i : Nat} {b : Int} {mem : List UInt8} {p : Nat}

-- Bytes of an instruction that survive linking and loading, and fields that get their value
-- there.
structure Survives (modules : List ModuleView) (i : Nat) (b : Int) (mem : List UInt8) (p : Nat)
    (bytes : List UInt8) (field : Option (Nat × Str)) : Prop where
  room : p + bytes.length ≤ mem.length
  plain : ∀ k < bytes.length, (∀ f ∈ field, ¬InField k f.1) → mem.getD (p + k) 0 = bytes.getD k 0
  field : ∀ f ∈ field, ∃ v, (∀ w, Denotes modules i f.2 w ↔ w = v) ∧
    (u16At mem (p + f.1) : Int) = (b + v) % 65536

theorem Survives.address {names : Names} {text : Str} {value : Int} {symbol : Option Str}
    (front : List UInt8) (hv : AddressField names text value symbol)
    (h : Survives modules i b mem p (front ++ u16Bytes value)
      (symbol.map fun s => (front.length, s))) :
    OperandValue modules i b text (u16At mem (p + front.length) : Int) := by
  have hliteral : symbol = none → (u16At mem (p + front.length) : Int) = value % 65536 := by
    rintro rfl
    have h0 := h.plain front.length (by simp [u16Bytes]) (by simp)
    have h1 := h.plain (front.length + 1) (by simp [u16Bytes]) (by simp)
    rw [u16At, Nat.add_assoc, h0, h1]
    simpa [u16Bytes] using u16Bytes_value value
  have hsymbolic : isNumber text = false → symbol = some text →
      OperandValue modules i b text (u16At mem (p + front.length) : Int) := by
    rintro hn rfl
    obtain ⟨v, hdenotes, hword⟩ := h.field (front.length, text) (by simp)
    rw [hword]
    exact .symbolic hn hdenotes
  cases hv with
  | literal hparse =>
    rw [hliteral rfl]
    exact .literal hparse
  | defined hn _ => exact hsymbolic hn rfl
  | imported hn _ _ => exact hsymbolic hn rfl

-- The executor reads an encoded instruction back. The cases follow the shapes.
theorem decode_encodes {names : Names} {op : Str} {opcode : UInt8} {shape : Shape}
    {args : List Str} {bytes : List UInt8} {field : Option (Nat × Str)}
    (hop : opmap.lookup op = some opcode) (hs : shapes.lookup op = some shape)
    (he : Encodes names opcode shape args bytes field)
    (h : Survives modules i b mem p bytes field) :
    ∃ instr, decode mem p = .ok instr ∧ instr.opcode = opcode ∧
      Reads modules i b args instr.registers instr.operand := by
  have hroom := h.room
  rw [he.length] at hroom
  have hfirst : mem.getD p 0 = opcode := by
    cases he with
    | bare | reg | regReg | regImm => exact h.plain 0 (by simp) (by simp)
    | regAddr ha hv =>
      refine h.plain 0 (by simp) ?_
      simp [InField]
    | addr hv =>
      refine h.plain 0 (by simp) ?_
      simp [InField]
  obtain ⟨instr, hdecode, hopcode, hregs, hoperand⟩ := decode_shape hop hs hroom hfirst
  refine ⟨instr, hdecode, hopcode, ?_⟩
  rw [hregs, hoperand]
  cases he with
  | bare => exact .bare _
  | reg ha =>
    have h1 := h.plain 1 (by simp) (by simp)
    simp only [shapeRegisters, shapeOperand, h1]
    simpa [toByte_register ha] using Reads.reg ha
  | regReg ha hb =>
    have h1 := h.plain 1 (by simp) (by simp)
    have h2 := h.plain 2 (by simp) (by simp)
    simp only [shapeRegisters, shapeOperand, h1, h2]
    simpa [toByte_register ha, toByte_register hb] using Reads.regReg ha hb
  | @regImm a imm r value ha hv =>
    have h1 := h.plain 1 (by simp) (by simp)
    have hliteral : AddressField names imm value none := .literal hv
    have hword := Survives.address [opcode, toByte r] hliteral h
    simp only [shapeRegisters, shapeOperand, h1]
    simpa [toByte_register ha] using Reads.regWord ha hword
  | @regAddr a text r value symbol ha hv =>
    have h1 : mem.getD (p + 1) 0 = toByte r := by
      refine h.plain 1 (by simp) ?_
      intro f hf
      obtain ⟨s, _, rfl⟩ := Option.mem_map.mp hf
      simp [InField]
    have hword := Survives.address [opcode, toByte r] hv h
    simp only [shapeRegisters, shapeOperand, h1]
    simpa [toByte_register ha] using Reads.regWord ha hword
  | @addr text value symbol hv =>
    have hword := Survives.address [opcode] hv h
    exact Reads.word hword

end Decode

-- The memory of a machine into which the modules were loaded at `b`.
structure LoadedAt (modules : List ModuleView) (b : Nat) (mem : List UInt8) : Prop where
  room : ∀ i m, modules[i]? = some m → b + offsetOf modules i + m.data.code.length ≤ mem.length
  plain : ∀ i m, modules[i]? = some m → ∀ k < m.data.code.length,
    (∀ r ∈ m.data.relocations, ¬InField k r.offset) →
      mem.getD (b + offsetOf modules i + k) 0 = m.data.code.getD k 0
  field : ∀ i m, modules[i]? = some m → ∀ r ∈ m.data.relocations, ∃ value,
    (∀ v, Denotes modules i r.symbol v ↔ v = value) ∧
      (u16At mem (b + offsetOf modules i + r.offset.toNat) : Int) = (b + value + r.addend) % 65536

section Loaded

variable {D : Type} [Floating D] {modules : List ModuleView}
  (hwf : ∀ m ∈ modules, m.data.WellFormed)

include hwf

-- Loading keeps the plain bytes of a relocatable image and moves its fields by the base.
theorem loadedAt_of_loadImage {loadAddress : Int} {entrySymbol : Option Str} {image : Image}
    (hlink : linkImage modules relocatable loadAddress entrySymbol = .ok image)
    {la : Option Int} {st : Machine}
    (hload : loadImage (assigned (imageMembers image : List (Str × Value D))) la = .ok st) :
    0 ≤ la.getD 0 ∧ LoadedAt modules (la.getD 0).toNat st.mem := by
  have hfit := linkImage_fits (fun m hm => (hwf m hm).size) hlink
  have hreal := realizes_of_linkImage hwf hfit hlink
  obtain ⟨globals, copied, entry, hl⟩ := linkImage_eq_ok.mp hlink
  have hreadable := readable_of_linked (fun h => absurd h (by decide)) hl
  have hmode : image.mode = relocatable := congrArg Image.mode hl.image_eq
  have haddr : image.loadAddress = 0 := congrArg Image.loadAddress hl.image_eq
  rw [loadImage_relocatable hreadable hmode, haddr] at hload
  simp only [bind_eq_ok, placeInMemory_eq_ok, Except.ok.injEq] at hload
  obtain ⟨code, hcode, mem, ⟨⟨h0, hle⟩, rfl⟩, rfl⟩ := hload
  generalize la.getD 0 = b at *
  have hlen := (updates_length hcode).trans hreal.length
  have hpending : image.relocations = (sites (placed 0 modules)).map sitePos :=
    hreal.pending.trans (sites_pos hwf hfit).symm
  have hroom : b.toNat + code.length ≤ (List.replicate memorySize (0 : UInt8)).length := by
    rw [List.length_replicate]
    omega
  have hbyte : ∀ k < code.length,
      (splice (List.replicate memorySize 0) b.toNat code).getD (b.toNat + k) 0 =
        code.getD k 0 := by
    intro k hk
    rw [splice_getD hroom, if_pos (by omega), Nat.add_sub_cancel_left]
  refine ⟨h0, ?_, ?_, ?_⟩
  · intro i m hm
    have := offsetOf_add_le hm
    simp only [splice_length hroom]
    omega
  · intro i m hm k hk hplain
    have := offsetOf_add_le hm
    obtain ⟨hi, rfl⟩ := List.getElem?_eq_some_iff.mp hm
    simp only [Nat.add_assoc]
    rw [hbyte _ (by omega), updates_getD hcode, hreal.plain i _ hm k hk hplain]
    intro u hu
    obtain ⟨off, hoff, rfl⟩ := List.mem_map.mp hu
    grind [not_inField_placed]
  · intro i m hm r hr
    have := offsetOf_add_le hm
    obtain ⟨value, hdenotes, hvalue⟩ := hreal.field i m hm r hr
    obtain ⟨hi, rfl⟩ := List.getElem?_eq_some_iff.mp hm
    have hfield := (hwf _ (List.getElem_mem hi)).fields r hr
    have hmem : (offsetOf modules i : Int) + r.offset ∈ image.relocations := by
      rw [hreal.pending]
      exact List.mem_flatten.mpr ⟨_, List.mem_mapIdx.mpr ⟨i, hi, rfl⟩, List.mem_map_of_mem hr⟩
    have hapart : (shifts b image.relocations).Pairwise fun u u' => Apart u.1 u'.1 := by
      rw [shifts, List.pairwise_map, hpending, List.pairwise_map]
      exact sites_apart hwf hfit
    have hword := updates_u16At hcode hapart (List.mem_map_of_mem hmem)
    simp only [wrap64_emod_u16,
      show ((offsetOf modules i : Int) + r.offset).toNat = offsetOf modules i + r.offset.toNat by
        omega, hvalue] at hword
    have hsame : u16At (splice (List.replicate memorySize 0) b.toNat code)
        (b.toNat + offsetOf modules i + r.offset.toNat) =
        u16At code (offsetOf modules i + r.offset.toNat) := by
      grind [u16At]
    grind

end Loaded

-- From the second pass to the loaded memory: the bytes of a statement of module `i`.
theorem LoadedAt.survives {modules : List ModuleView} {b : Nat} {mem : List UInt8}
    (h : LoadedAt modules b mem) {i : Nat} {m : ModuleView} (hm : modules[i]? = some m)
    {lines : List Str} {moduleName sourceName : Str} {layout : Layout} {emission : Emission}
    (hasm : Assembled lines moduleName sourceName m.data layout emission)
    (hspaces : NonnegSpaces lines) {front back : List (Int × Str)} {item : Int × Str}
    (hparsed : layout.parsed = front ++ item :: back) {reached : Emission}
    (hreached : hasm.emit front = .ok reached) {first : Str} {operands : List Str}
    {opcode : UInt8} (ht : tokenize item.2 = first :: operands)
    (hop : opmap.lookup (upper first) = some opcode) :
    0 ≤ reached.pc ∧ ∃ shape bytes field, shapes.lookup (upper first) = some shape ∧
      Encodes ⟨layout.symbols, layout.externs⟩ opcode shape
        (splitArgs (trim (item.2.drop first.length))) bytes field ∧
      Survives modules i b mem (b + offsetOf modules i + reached.pc.toNat) bytes field := by
  obtain ⟨bytes, fields, earlier, later, hc, h0, hle, hbytes, hrelocs, hearlier, hlater⟩ :=
    hasm.statement_placed hspaces hparsed hreached
  obtain ⟨shape, field, hs, he, rfl⟩ := hc.instruction_inv ht hop
  have hroom := h.room i m hm
  refine ⟨h0, shape, bytes, field, hs, he, by omega, ?_, ?_⟩
  · intro k hk hplain
    rw [Nat.add_assoc, h.plain i m hm _ (by omega), hbytes k hk]
    intro r hr
    rw [hrelocs, List.mem_append, List.mem_append] at hr
    unfold InField
    rcases hr with (hr | hr) | hr
    · have := hearlier r hr
      omega
    · obtain ⟨f, hf, rfl⟩ := mem_relocsAt hr
      grind [InField]
    · have := hlater r hr
      omega
  · intro f hf
    have hr : ⟨((reached.pc.toNat + f.1 : Nat) : Int), 2, f.2, 0⟩ ∈ m.data.relocations := by
      rw [hrelocs, List.mem_append, List.mem_append]
      exact Or.inl (Or.inr (List.mem_map_of_mem (by simpa using hf)))
    obtain ⟨value, hdenotes, hword⟩ := h.field i m hm _ hr
    grind

-- Every instruction of the source arrives in the machine. Where the second pass put it, the
-- executor finds its opcode, its registers and its operand, a literal as it was written and
-- a symbol as the address at which its definition was loaded, and continues after it at the
-- distance that the first pass reckoned with.
theorem instruction_end_to_end {D : Type} [Floating D] {modules : List ModuleView}
    (hsource : ∀ m ∈ modules, FromSource m.data)
    {loadAddress : Int} {entrySymbol : Option Str} {image : Image}
    (hlink : linkImage modules relocatable loadAddress entrySymbol = .ok image)
    {la : Option Int} {st : Machine}
    (hload : loadImage (assigned (imageMembers image : List (Str × Value D))) la = .ok st)
    {i : Nat} {m : ModuleView} (hm : modules[i]? = some m) {lines : List Str}
    {moduleName sourceName : Str} (hspaces : NonnegSpaces lines)
    (hobj : assembleObject lines moduleName sourceName = .ok m.data) {layout : Layout}
    (hfirst : firstPass sourceName lines = .ok layout) {front back : List (Int × Str)}
    {item : Int × Str} (hparsed : layout.parsed = front ++ item :: back) {reached : Emission}
    (hreached : secondPass sourceName ⟨layout.symbols, layout.externs⟩ m.data.code.length front =
      .ok reached)
    {first : Str} {operands : List Str} {opcode : UInt8}
    (ht : tokenize item.2 = first :: operands)
    (hop : opmap.lookup (upper first) = some opcode) :
    ∃ instr size, decode st.mem (la.getD 0 + offsetOf modules i + reached.pc) = .ok instr ∧
      instr.opcode = opcode ∧
      Reads modules i (la.getD 0) (splitArgs (trim (item.2.drop first.length))) instr.registers
        instr.operand ∧
      kInstrSizes.lookup (upper first) = some size ∧
      ∀ s s' printed, execute instr s = .ok (.next s' printed) → instr.jumps s.regs = false →
        s'.pc = s.pc + size := by
  have hwf : ∀ m ∈ modules, m.data.WellFormed := fun m hm => (hsource m hm).wellFormed
  obtain ⟨hb, hloaded⟩ := loadedAt_of_loadImage hwf hlink hload
  obtain ⟨layout', emission, hasm⟩ := assembleObject_eq_ok hobj
  have hsame := hasm.first
  rw [hfirst, Except.ok.injEq] at hsame
  subst hsame
  obtain ⟨h0, shape, bytes, field, hs, he, hsurvives⟩ :=
    hloaded.survives hm hasm hspaces hparsed hreached ht hop
  obtain ⟨instr, hdecode, hopcode, hreads⟩ := decode_encodes hop hs he hsurvives
  rw [Int.toNat_of_nonneg hb] at hreads
  refine ⟨instr, opcodeSize opcode, ?_, hopcode, hreads, kInstrSizes_opcodeSize hop, ?_⟩
  · rw [← hdecode]
    congr 1
    omega
  · intro s s' printed hstep hj
    rw [← hopcode]
    exact (execute_advances hstep).pc hj

-- The first instruction of the caller, loaded at 256.
theorem instruction_end_to_end_load :
    ∃ st instr, loadImage (assigned (imageMembers pairImage : List (Str × Value Empty))) (some 256) =
        .ok st ∧ decode st.mem 256 = .ok instr ∧ instr.opcode = 0x11 ∧
      Reads [caller, callee] 0 256 [lit "R1", lit "value"] instr.registers instr.operand := by
  have hreadable : Readable pairImage := ⟨by decide, by decide, by decide⟩
  have hcode : updates pairImage.code (shifts 256 pairImage.relocations) =
      .ok [17, 1, 8, 1, 48, 4, 1, 0, 7, 0, 0, 0, 48, 7, 1] := by
    decide +kernel
  obtain ⟨mem, hplace⟩ : ∃ mem,
      placeInMemory 256 [17, 1, 8, 1, 48, 4, 1, 0, 7, 0, 0, 0, 48, 7, 1] = .ok mem :=
    ⟨_, placeInMemory_eq_ok.mpr ⟨by decide, rfl⟩⟩
  obtain ⟨st, hload⟩ : ∃ st, loadImage
      (assigned (imageMembers pairImage : List (Str × Value Empty))) (some 256) = .ok st := by
    rw [loadImage_relocatable hreadable rfl]
    simp only [bind_eq_ok]
    exact ⟨_, _, hcode, mem, hplace, rfl⟩
  have hfirst : firstPass (lit "caller.asm") callerLines =
      .ok ⟨caller.data.symbols, [lit "start"], [lit "value"],
        [(1, lit ".GLOBAL start"), (2, lit ".EXTERN value"), (3, lit "LOAD R1, value"),
          (4, lit "JMP loop")], 7⟩ := by
    decide +kernel
  have hreached : secondPass (lit "caller.asm") ⟨caller.data.symbols, [lit "value"]⟩ 7
      [(1, lit ".GLOBAL start"), (2, lit ".EXTERN value")] = .ok (Emission.start 7) := by
    decide +kernel
  have hm : [caller, callee][0]? = some caller := rfl
  have hparsed : [(1, lit ".GLOBAL start"), (2, lit ".EXTERN value"), (3, lit "LOAD R1, value"),
      ((4 : Int), lit "JMP loop")] = [(1, lit ".GLOBAL start"), (2, lit ".EXTERN value")] ++
        (3, lit "LOAD R1, value") :: [(4, lit "JMP loop")] := rfl
  have ht : tokenize (lit "LOAD R1, value") = [lit "LOAD", lit "R1,", lit "value"] := by decide
  have hop : opmap.lookup (upper (lit "LOAD")) = some 0x11 := by decide
  have hargs : splitArgs (trim ((lit "LOAD R1, value").drop (lit "LOAD").length)) =
      [lit "R1", lit "value"] := by decide
  obtain ⟨instr, size, hdecode, hopcode, hreads, _⟩ := instruction_end_to_end pair_assembled
    pairImage_linked hload hm caller_assembled.1 caller_assembled.2 hfirst hparsed hreached ht hop
  have hpc : (some (256 : Int)).getD 0 + (offsetOf [caller, callee] 0 : Int) +
      (Emission.start 7).pc = 256 := by decide
  rw [hpc] at hdecode
  simp only [hargs] at hreads
  exact ⟨st, instr, hload, hdecode, hopcode, hreads⟩

section Files

variable {D : Type} {modules : List ModuleView} {mode : Str} {loadAddress : Int}
  {entrySymbol : Option Str} {image : Image}

-- The symbols of an image are the table of globals, in its order.
theorem imageJson_built (h : linkImage modules mode loadAddress entrySymbol = .ok image) :
    (imageJson image : Value D).Built := by
  obtain ⟨globals, copied, entry, hlinked⟩ := linkImage_eq_ok.mp h
  have hsorted : image.symbols.Pairwise fun p q => p.1 < q.1 := by
    rw [hlinked.image_eq]
    exact List.pairwise_map.mpr globals.sorted
  refine members_built ?_
  simp only [imageMembers, List.forall_mem_cons, List.not_mem_nil, false_implies, implies_true,
    and_true]
  refine ⟨.str _, .str _, .int _, .int _, .int _, codeJson_built _, .arr ?_,
    symbolsJson_built ⟨image.symbols, hsorted⟩⟩
  intro v hv
  obtain ⟨offset, -, rfl⟩ := List.mem_map.mp hv
  refine members_built ?_
  simp only [List.forall_mem_cons, List.not_mem_nil, false_implies, implies_true, and_true]
  exact ⟨.int _, .int _⟩

theorem executableMembers_imageJson (exePath : Str) (image : Image) :
    executableMembers exePath (imageJson image : Value D) = .ok (assigned (imageMembers image)) := by
  rw [imageJson, members, executableMembers]
  simp only [lookup_assigned (imageMembers_nodup image)]
  rfl

end Files

-- An image that is run from a file runs as it does in memory.
theorem executable_roundTrip {D : Type} [Floating D] (modules : List ModuleView) (mode : Str)
    (loadAddress : Int) (entrySymbol : Option Str) (exePath : Str) (la : Option Int) (maxSteps : Int) :
    (linkModules modules mode loadAddress entrySymbol >>= fun v : Value D =>
      .ok (runFile (D := D) exePath (dump v) la maxSteps)) =
    (linkImage modules mode loadAddress entrySymbol >>= fun image =>
      .ok (runImage (assigned (imageMembers image : List (Str × Value D))) la maxSteps)) := by
  rw [linkModules, bind_assoc]
  cases hlink : linkImage modules mode loadAddress entrySymbol with
  | error e => simp only [error_bind]
  | ok image =>
    simp only [ok_bind, runFile, parseText_dump_of_built (imageJson_built hlink),
      executableMembers_imageJson]

end Wirth.Toolchain.Executor

import Wirth.Toolchain.Assembler.Encode

namespace Wirth.Toolchain.Assembler

open Wirth.Lib

-- The six ways in which the operands of an instruction are laid out after its opcode.
inductive Shape where
  | bare
  | reg
  | regReg
  | regImm
  | regAddr
  | addr
  deriving DecidableEq

def Shape.size : Shape → Nat
  | .bare => 1
  | .reg => 2
  | .regReg => 3
  | .regImm => 4
  | .regAddr => 4
  | .addr => 3

def shapes : List (Str × Shape) :=
  [(lit "NOP", .bare), (lit "HALT", .bare), (lit "RET", .bare), (lit "LOADI", .regImm),
    (lit "LOAD", .regAddr), (lit "STORE", .regAddr), (lit "ADD", .regReg), (lit "SUB", .regReg),
    (lit "MUL", .regReg), (lit "DIV", .regReg), (lit "MOV", .regReg), (lit "JMP", .addr),
    (lit "JZ", .regAddr), (lit "JNZ", .regAddr), (lit "PRINT", .reg)]

-- The value an address operand leaves in its field, and the symbol the field refers to.
inductive AddressField (names : Names) (text : Str) : Int → Option Str → Prop
  | literal {value : Int} (h : parseNumber text = .ok value) : AddressField names text value none
  | defined {value : Int} (hn : isNumber text = false)
      (h : names.symbols.find? text = some value) : AddressField names text value (some text)
  | imported (hn : isNumber text = false) (h : names.symbols.find? text = none)
      (he : text ∈ names.externs) : AddressField names text 0 (some text)

-- The bytes of an instruction, and the place in them of a field to relocate.
inductive Encodes (names : Names) (opcode : UInt8) :
    Shape → List Str → List UInt8 → Option (Nat × Str) → Prop
  | bare (args : List Str) : Encodes names opcode .bare args [opcode] none
  | reg {a : Str} {r : Int} (ha : regIndex a = .ok r) :
      Encodes names opcode .reg [a] [opcode, toByte r] none
  | regReg {a b : Str} {r q : Int} (ha : regIndex a = .ok r) (hb : regIndex b = .ok q) :
      Encodes names opcode .regReg [a, b] [opcode, toByte r, toByte q] none
  | regImm {a imm : Str} {r value : Int} (ha : regIndex a = .ok r)
      (hv : parseNumber imm = .ok value) :
      Encodes names opcode .regImm [a, imm] ([opcode, toByte r] ++ u16Bytes value) none
  | regAddr {a text : Str} {r value : Int} {symbol : Option Str} (ha : regIndex a = .ok r)
      (hv : AddressField names text value symbol) :
      Encodes names opcode .regAddr [a, text] ([opcode, toByte r] ++ u16Bytes value)
        (symbol.map fun s => (2, s))
  | addr {text : Str} {value : Int} {symbol : Option Str}
      (hv : AddressField names text value symbol) :
      Encodes names opcode .addr [text] ([opcode] ++ u16Bytes value) (symbol.map fun s => (1, s))

variable {names : Names} {opcode : UInt8} {out : Output} {pos : Position} {shape : Shape}
  {out' : Output} {pc : Int} {args : List Str}

theorem Encodes.length
    {bytes : List UInt8} {field : Option (Nat × Str)}
    (h : Encodes names opcode shape args bytes field) : bytes.length = shape.size := by
  cases h <;> rfl

theorem Encodes.field_fits
    {bytes : List UInt8} {k : Nat} {s : Str}
    (h : Encodes names opcode shape args bytes (some (k, s))) : k + 2 ≤ bytes.length := by
  generalize hfield : some (k, s) = field at h
  cases h with
  | bare | reg | regReg | regImm => cases hfield
  | regAddr | addr =>
    obtain ⟨_, _, hk⟩ := Option.map_eq_some_iff.mp hfield.symm
    cases hk
    simp [u16Bytes]

theorem lookup_tables {op : Str} {opcode : UInt8} (h : opmap.lookup op = some opcode) :
    ∃ shape : Shape, shapes.lookup op = some shape ∧
      kInstrSizes.lookup op = some (shape.size : Int) := by
  have hall : ∀ p ∈ opmap, ∃ q ∈ shapes, q.1 = p.1 ∧ shapes.lookup p.1 = some q.2 ∧
      kInstrSizes.lookup p.1 = some (q.2.size : Int) := by
    decide +kernel
  obtain ⟨q, _, _, hq, hs⟩ := hall _ (mem_of_lookup h)
  exact ⟨q.2, hq, hs⟩

-- The entries of the relocation table for the fields of a stretch at `pc`.
def relocsAt (pc : Nat) (fields : List (Nat × Str)) : List Reloc :=
  fields.map fun f => ⟨((pc + f.1 : Nat) : Int), 2, f.2, 0⟩

-- An output in which a stretch of the code was overwritten and fields were added.
def Output.extend (out : Output) (pc : Nat) (bytes : List UInt8) (fields : List (Nat × Str)) :
    Output :=
  ⟨splice out.code pc bytes, out.relocations ++ relocsAt pc fields⟩

theorem emitByte_spec {b : UInt8}
    (h : out.emitByte pc b = .ok out') :
    (0 ≤ pc ∧ pc + 1 ≤ out.code.length) ∧ out' = out.extend pc.toNat [b] [] := by
  simp only [Output.emitByte, bind_eq_ok, Except.ok.injEq] at h
  obtain ⟨code, hcode, rfl⟩ := h
  obtain ⟨hi, rfl⟩ := store_eq_splice hcode
  exact ⟨hi, by simp [Output.extend, relocsAt]⟩

theorem emitValue_spec {pc x : Int} (h : out.emitValue pc x = .ok out') :
    (0 ≤ pc ∧ pc + 2 ≤ out.code.length) ∧ out' = out.extend pc.toNat (u16Bytes x) [] := by
  simp only [Output.emitValue, emitU16, bind_eq_ok, Except.ok.injEq] at h
  obtain ⟨code, hcode, rfl⟩ := h
  obtain ⟨hi, rfl⟩ := storeU16_eq_splice hcode
  exact ⟨hi, by simp [Output.extend, relocsAt]⟩

theorem emitRegister_spec {out out' : Output} {pc : Int} {name : Str}
    (h : emitRegister pc name out = .ok out') :
    ∃ r, regIndex name = .ok r ∧ (0 ≤ pc ∧ pc + 1 ≤ out.code.length) ∧
      out' = out.extend pc.toNat [toByte r] [] := by
  simp only [emitRegister, bind_eq_ok] at h
  obtain ⟨r, hr, h⟩ := h
  exact ⟨r, hr, emitByte_spec h⟩

theorem emitAddress_spec {out out' : Output} {pc : Int}
    {text : Str} (h : emitAddress names pos pc text out = .ok out') :
    ∃ value symbol, AddressField names text value symbol ∧
      (0 ≤ pc ∧ pc + 2 ≤ out.code.length) ∧
      out' = out.extend pc.toNat (u16Bytes value) (symbol.map fun s => (0, s)).toList := by
  unfold emitAddress at h
  split_ifs at h with hn
  · simp only [bind_eq_ok] at h
    obtain ⟨value, hv, h⟩ := h
    obtain ⟨hi, rfl⟩ := emitValue_spec h
    exact ⟨value, none, .literal hv, hi, rfl⟩
  · rw [Bool.not_eq_true] at hn
    unfold emitSymbolU16 at h
    split at h
    · rename_i value hv
      simp only [bind_eq_ok, Except.ok.injEq] at h
      obtain ⟨mid, hmid, rfl⟩ := h
      obtain ⟨hi, rfl⟩ := emitValue_spec hmid
      refine ⟨value, some text, .defined hn hv, hi, ?_⟩
      simp [Output.extend, relocsAt, Int.toNat_of_nonneg hi.1]
    · rename_i hnone
      split_ifs at h with he
      · simp only [bind_eq_ok, Except.ok.injEq] at h
        obtain ⟨mid, hmid, rfl⟩ := h
        obtain ⟨hi, rfl⟩ := emitValue_spec hmid
        refine ⟨0, some text, .imported hn hnone he, hi, ?_⟩
        simp [Output.extend, relocsAt, Int.toNat_of_nonneg hi.1]
      · simp [Position.fail] at h

theorem extend_extend {pc pc' : Nat} {xs ys : List UInt8} {fs gs : List (Nat × Str)}
    (hpc : pc' = pc + xs.length) (hlen : pc + xs.length + ys.length ≤ out.code.length) :
    (out.extend pc xs fs).extend pc' ys gs =
      out.extend pc (xs ++ ys) (fs ++ gs.map fun g => (xs.length + g.1, g.2)) := by
  subst hpc
  simp only [Output.extend, relocsAt, splice_splice hlen, List.map_append, List.map_map, List.append_assoc]
  congr 3
  apply List.map_congr_left
  simp [Nat.add_assoc]

theorem extend_length {pc : Nat} {bytes : List UInt8} {fields : List (Nat × Str)}
    (h : pc + bytes.length ≤ out.code.length) :
    (out.extend pc bytes fields).code.length = out.code.length :=
  splice_length h

-- Continuing a write that has reached `pc + xs.length`.

theorem emitRegister_extend {pc : Nat} {xs : List UInt8} {at_ : Int}
    {name : Str} (hat : at_ = pc + xs.length) (hx : pc + xs.length ≤ out.code.length)
    (h : emitRegister at_ name (out.extend pc xs []) = .ok out') :
    ∃ r, regIndex name = .ok r ∧ pc + (xs ++ [toByte r]).length ≤ out.code.length ∧
      out' = out.extend pc (xs ++ [toByte r]) [] := by
  obtain ⟨r, hr, hi, rfl⟩ := emitRegister_spec h
  rw [extend_length hx] at hi
  refine ⟨r, hr, by simp; omega, ?_⟩
  rw [extend_extend (by omega) (by simp; omega)]
  simp

theorem emitValue_extend {pc : Nat} {xs : List UInt8} {at_ value : Int}
    (hat : at_ = pc + xs.length) (hx : pc + xs.length ≤ out.code.length)
    (h : (out.extend pc xs []).emitValue at_ value = .ok out') :
    pc + (xs ++ u16Bytes value).length ≤ out.code.length ∧
      out' = out.extend pc (xs ++ u16Bytes value) [] := by
  obtain ⟨hi, rfl⟩ := emitValue_spec h
  rw [extend_length hx] at hi
  refine ⟨by simp [u16Bytes]; omega, ?_⟩
  rw [extend_extend (by omega) (by simp [u16Bytes]; omega)]
  simp

theorem emitAddress_extend {out out' : Output} {pc : Nat}
    {xs : List UInt8} {at_ : Int} {text : Str} (hat : at_ = pc + xs.length)
    (hx : pc + xs.length ≤ out.code.length)
    (h : emitAddress names pos at_ text (out.extend pc xs []) = .ok out') :
    ∃ value symbol, AddressField names text value symbol ∧
      pc + (xs ++ u16Bytes value).length ≤ out.code.length ∧
      out' = out.extend pc (xs ++ u16Bytes value) (symbol.map fun s => (xs.length, s)).toList := by
  obtain ⟨value, symbol, hv, hi, rfl⟩ := emitAddress_spec h
  rw [extend_length hx] at hi
  refine ⟨value, symbol, hv, by simp [u16Bytes]; omega, ?_⟩
  rw [extend_extend (by omega) (by simp [u16Bytes]; omega)]
  cases symbol <;> simp

-- What one instruction adds to the output. The cases follow the branches of the encoder.
theorem encodeInstruction_spec {pc pc' : Int} {op : Str}
    {args : List Str} {out out' : Output}
    (h : encodeInstruction names pos pc op args out = .ok (out', pc')) :
    ∃ opcode shape bytes field, opmap.lookup op = some opcode ∧ shapes.lookup op = some shape ∧
      Encodes names opcode shape args bytes field ∧
      (0 ≤ pc ∧ pc + bytes.length ≤ out.code.length) ∧
      out' = out.extend pc.toNat bytes field.toList ∧ pc' = pc + bytes.length := by
  unfold encodeInstruction at h
  split at h
  · simp [Position.fail] at h
  rename_i opcode hop
  rw [bind_eq_ok] at h
  obtain ⟨first, hfirst, h⟩ := h
  obtain ⟨hpc, rfl⟩ := emitByte_spec hfirst
  obtain ⟨n, rfl⟩ : ∃ n : Nat, pc = n := ⟨pc.toNat, by omega⟩
  have hx : n + [opcode].length ≤ out.code.length := by simp; omega
  split_ifs at h with hbare hprint harith hloadi hmem hjmp hcond
  · cases h
    refine ⟨opcode, .bare, [opcode], none, hop, ?_, .bare args, by simp; omega, rfl, rfl⟩
    rcases hbare with rfl | rfl | rfl <;> decide
  · split at h
    · simp only [bind_eq_ok, Except.ok.injEq, Prod.mk.injEq] at h
      obtain ⟨mid, hmid, rfl, rfl⟩ := h
      obtain ⟨r, hr, hlen, rfl⟩ := emitRegister_extend (by simp) hx hmid
      refine ⟨opcode, .reg, [opcode, toByte r], none, hop, ?_, .reg hr, ?_, rfl, rfl⟩
      · subst hprint
        decide
      · simp at hlen ⊢
        omega
    · simp [Position.fail] at h
  · split at h
    · simp only [bind_eq_ok, Except.ok.injEq, Prod.mk.injEq] at h
      obtain ⟨mid, hmid, mid', hmid', rfl, rfl⟩ := h
      obtain ⟨r, hr, hlen, rfl⟩ := emitRegister_extend (by simp) hx hmid
      obtain ⟨q, hq, hlen', rfl⟩ := emitRegister_extend (by simp) hlen hmid'
      refine ⟨opcode, .regReg, [opcode, toByte r, toByte q], none, hop, ?_, .regReg hr hq, ?_,
        rfl, rfl⟩
      · rcases harith with rfl | rfl | rfl | rfl | rfl <;> decide
      · simp at hlen' ⊢
        omega
    · simp [Position.fail] at h
  · split at h
    · simp only [bind_eq_ok, Except.ok.injEq, Prod.mk.injEq] at h
      obtain ⟨mid, hmid, value, hvalue, mid', hmid', rfl, rfl⟩ := h
      obtain ⟨r, hr, hlen, rfl⟩ := emitRegister_extend (by simp) hx hmid
      obtain ⟨hlen', rfl⟩ := emitValue_extend (by simp) hlen hmid'
      refine ⟨opcode, .regImm, [opcode, toByte r] ++ u16Bytes value, none, hop, ?_,
        .regImm hr hvalue, ?_, rfl, rfl⟩
      · subst hloadi
        decide
      · simp at hlen' ⊢
        omega
    · simp [Position.fail] at h
  · split at h
    · simp only [bind_eq_ok, Except.ok.injEq, Prod.mk.injEq] at h
      obtain ⟨mid, hmid, mid', hmid', rfl, rfl⟩ := h
      obtain ⟨r, hr, hlen, rfl⟩ := emitRegister_extend (by simp) hx hmid
      obtain ⟨value, symbol, hv, hlen', rfl⟩ := emitAddress_extend (by simp) hlen hmid'
      refine ⟨opcode, .regAddr, [opcode, toByte r] ++ u16Bytes value, _, hop, ?_,
        .regAddr hr hv, ?_, rfl, rfl⟩
      · rcases hmem with rfl | rfl <;> decide
      · simp at hlen' ⊢
        omega
    · simp [Position.fail] at h
  · split at h
    · simp only [bind_eq_ok, Except.ok.injEq, Prod.mk.injEq] at h
      obtain ⟨mid, hmid, rfl, rfl⟩ := h
      obtain ⟨value, symbol, hv, hlen, rfl⟩ := emitAddress_extend (by simp) hx hmid
      refine ⟨opcode, .addr, [opcode] ++ u16Bytes value, _, hop, ?_, .addr hv, ?_, rfl, rfl⟩
      · subst hjmp
        decide
      · omega
    · simp [Position.fail] at h
  · split at h
    · simp only [bind_eq_ok, Except.ok.injEq, Prod.mk.injEq] at h
      obtain ⟨mid, hmid, mid', hmid', rfl, rfl⟩ := h
      obtain ⟨r, hr, hlen, rfl⟩ := emitRegister_extend (by simp) hx hmid
      obtain ⟨value, symbol, hv, hlen', rfl⟩ := emitAddress_extend (by simp) hlen hmid'
      refine ⟨opcode, .regAddr, [opcode, toByte r] ++ u16Bytes value, _, hop, ?_,
        .regAddr hr hv, ?_, rfl, rfl⟩
      · rcases hcond with rfl | rfl <;> decide
      · simp at hlen' ⊢
        omega
    · simp [Position.fail] at h
  · simp [Position.fail] at h

end Wirth.Toolchain.Assembler

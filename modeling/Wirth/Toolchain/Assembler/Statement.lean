import Wirth.Toolchain.Assembler.Passes
import Wirth.Toolchain.Assembler.Shape

namespace Wirth.Toolchain.Assembler

open Wirth.Lib

def isSilent (op : Str) : Bool :=
  op = lit ".GLOBAL" || op = lit ".EXTERN" || op = lit ".ENTRY"

def producing (item : Int × Str) : Bool :=
  match tokenize item.2 with
  | [] => false
  | first :: _ => !isSilent (upper first)

-- What a statement contributes: its bytes, the address fields among them, and the
-- distance to the next statement. Only a negative `.SPACE` moves backwards.
inductive Contributes (names : Names) (line : Str) :
    List UInt8 → List (Nat × Str) → Int → Prop
  | blank (ht : tokenize line = []) : Contributes names line [] [] 0
  | silent {first : Str} {operands : List Str} (ht : tokenize line = first :: operands)
      (hd : isSilent (upper first) = true) : Contributes names line [] [] 0
  | byte {first value : Str} {operands : List Str} {v : Int}
      (ht : tokenize line = first :: value :: operands) (hd : upper first = lit ".BYTE")
      (hv : parseNumber value = .ok v) : Contributes names line [toByte v] [] 1
  | word {first text : Str} {operands : List Str} {v : Int} {symbol : Option Str}
      (ht : tokenize line = first :: text :: operands) (hd : upper first = lit ".WORD")
      (hv : AddressField names text v symbol) :
      Contributes names line (u16Bytes v) (symbol.map fun s => (0, s)).toList 2
  | space {first text : Str} {operands : List Str} {count : Int}
      (ht : tokenize line = first :: text :: operands) (hd : upper first = lit ".SPACE")
      (hv : parseNumber text = .ok count) :
      Contributes names line (List.replicate count.toNat 0) [] count
  | instruction {first : Str} {operands : List Str} {opcode : UInt8} {shape : Shape}
      {bytes : List UInt8} {field : Option (Nat × Str)}
      (ht : tokenize line = first :: operands) (hop : opmap.lookup (upper first) = some opcode)
      (hs : shapes.lookup (upper first) = some shape)
      (he : Encodes names opcode shape (splitArgs (trim (line.drop first.length))) bytes field) :
      Contributes names line bytes field.toList shape.size

theorem isSilent_eq_true {op : Str} : isSilent op = true ↔
    op = lit ".GLOBAL" ∨ op = lit ".EXTERN" ∨ op = lit ".ENTRY" := by
  simp only [isSilent, Bool.or_eq_true, decide_eq_true_eq, or_assoc]

theorem opmap_not_directive {op : Str} {opcode : UInt8} (h : opmap.lookup op = some opcode) :
    isSilent op = false ∧ op ≠ lit ".BYTE" ∧ op ≠ lit ".WORD" ∧ op ≠ lit ".SPACE" := by
  have hall : ∀ p ∈ opmap, isSilent p.1 = false ∧ p.1 ≠ lit ".BYTE" ∧ p.1 ≠ lit ".WORD" ∧
      p.1 ≠ lit ".SPACE" := by
    decide +kernel
  exact hall _ (mem_of_lookup h)

theorem Contributes.instruction_inv {names : Names} {line first : Str} {operands : List Str}
    {opcode : UInt8} {bytes : List UInt8} {fields : List (Nat × Str)} {advance : Int}
    (h : Contributes names line bytes fields advance) (ht : tokenize line = first :: operands)
    (hop : opmap.lookup (upper first) = some opcode) :
    ∃ shape field, shapes.lookup (upper first) = some shape ∧
      Encodes names opcode shape (splitArgs (trim (line.drop first.length))) bytes field ∧
      fields = field.toList := by
  obtain ⟨hsilent, hbyte, hword, hspace⟩ := opmap_not_directive hop
  cases h with
  | blank ht' => simp [ht] at ht'
  | silent ht' hd =>
    cases ht.symm.trans ht'
    simp [hsilent] at hd
  | byte ht' hd _ =>
    cases ht.symm.trans ht'
    exact absurd hd hbyte
  | word ht' hd _ =>
    cases ht.symm.trans ht'
    exact absurd hd hword
  | space ht' hd _ =>
    grind
  | @instruction _ _ opcode' shape _ field ht' hop' hs he =>
    grind

theorem splice_nil (v : List UInt8) (i : Nat) : splice v i [] = v := by
  simp [splice]

theorem clearBytes_spec {n : Nat} {offset : Int} {code code' : List UInt8}
    (h : clearBytes n offset code = .ok code') :
    (n = 0 ∨ 0 ≤ offset ∧ offset + n ≤ code.length) ∧
      code' = splice code offset.toNat (List.replicate n 0) := by
  induction n generalizing offset code with
  | zero =>
    cases h
    exact ⟨Or.inl rfl, (splice_nil _ _).symm⟩
  | succ n ih =>
    simp only [clearBytes, bind_eq_ok] at h
    obtain ⟨mid, hmid, h⟩ := h
    obtain ⟨hi, rfl⟩ := store_eq_splice hmid
    obtain ⟨hn, rfl⟩ := ih h
    rw [splice_length (by simp; omega)] at hn
    have hle : offset + (n + 1 : Nat) ≤ code.length := by omega
    refine ⟨Or.inr ⟨hi.1, hle⟩, ?_⟩
    rw [show (offset + 1).toNat = offset.toNat + [(0 : UInt8)].length by simp; omega,
      splice_splice (by simp; omega)]
    rfl

theorem extend_nil (out : Output) (pc : Nat) : out.extend pc [] [] = out := by
  simp [Output.extend, relocsAt, splice_nil]

-- The place where a statement writes lies inside the code, if it writes at all.
def Fits (pc : Int) (bytes code : List UInt8) : Prop :=
  bytes = [] ∨ 0 ≤ pc ∧ pc + bytes.length ≤ code.length

theorem emitStatement_spec {sourceName : Str} {names : Names} {st st' : Emission}
    {item : Int × Str} (hpc : InRange64 st.pc) (hsize : (st.out.code.length : Int) < 2 ^ 63)
    (h : emitStatement sourceName names st item = .ok st') :
    ∃ bytes fields advance, Contributes names item.2 bytes fields advance ∧
      Fits st.pc bytes st.out.code ∧ st'.out = st.out.extend st.pc.toNat bytes fields ∧
      st'.pc = wrap64 (st.pc + advance) := by
  have hkeep : ∀ n : Nat, 0 ≤ st.pc → st.pc + n ≤ st.out.code.length →
      wrap64 (st.pc + n) = st.pc + n := by
    intro n h0 h1
    exact wrap64_eq_self ⟨by omega, by omega⟩
  have hstay : st.pc = wrap64 (st.pc + 0) := by rw [Int.add_zero, wrap64_eq_self hpc]
  unfold emitStatement at h
  split at h
  · rename_i ht
    cases h
    exact ⟨[], [], 0, .blank ht, Or.inl rfl, (extend_nil _ _).symm, hstay⟩
  rename_i first operands ht
  simp only at h
  split_ifs at h with hname hentry hbyte hword hspace
  · cases h
    refine ⟨[], [], 0, .silent ht ?_, Or.inl rfl, (extend_nil _ _).symm, hstay⟩
    grind [isSilent_eq_true]
  · have hsilent : isSilent (upper first) = true := by
      rw [isSilent_eq_true]
      exact Or.inr (Or.inr hentry)
    split at h
    · simp [Position.fail] at h
    split at h
    · simp [Position.fail] at h
    cases h
    exact ⟨[], [], 0, .silent ht hsilent, Or.inl rfl, (extend_nil _ _).symm, hstay⟩
  · split at h
    · simp [Position.fail] at h
    simp only [bind_eq_ok, Except.ok.injEq] at h
    obtain ⟨v, hv, out, hout, rfl⟩ := h
    obtain ⟨hi, rfl⟩ := emitByte_spec hout
    exact ⟨[toByte v], [], 1, .byte ht hbyte hv, Or.inr hi, rfl, (hkeep 1 hi.1 hi.2).symm⟩
  · split at h
    · simp [Position.fail] at h
    simp only [bind_eq_ok, Except.ok.injEq] at h
    obtain ⟨out, hout, rfl⟩ := h
    obtain ⟨v, symbol, hv, hi, rfl⟩ := emitAddress_spec hout
    exact ⟨u16Bytes v, _, 2, .word ht hword hv, Or.inr hi, rfl, (hkeep 2 hi.1 hi.2).symm⟩
  · split at h
    · simp [Position.fail] at h
    simp only [bind_eq_ok, Except.ok.injEq] at h
    obtain ⟨count, hv, code, hcode, rfl⟩ := h
    obtain ⟨hi, rfl⟩ := clearBytes_spec hcode
    refine ⟨List.replicate count.toNat 0, [], count, .space ht hspace hv, ?_, ?_, rfl⟩
    · rcases hi with h0 | hi
      · exact Or.inl (by rw [h0]; rfl)
      · exact Or.inr (by simpa using hi)
    · simp [Output.extend, relocsAt]
  · rw [bind_eq_ok] at h
    obtain ⟨⟨out, pc⟩, hout, h⟩ := h
    cases h
    obtain ⟨opcode, shape, bytes, field, hop, hs, he, hi, rfl, rfl⟩ := encodeInstruction_spec hout
    refine ⟨bytes, field.toList, shape.size, .instruction ht hop hs he, Or.inr hi, rfl, ?_⟩
    rw [← he.length]
    exact (hkeep bytes.length hi.1 hi.2).symm

end Wirth.Toolchain.Assembler

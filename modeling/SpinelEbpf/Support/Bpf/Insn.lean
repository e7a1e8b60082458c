import Mathlib

/-!
# Support — BPF — Instructions

The instruction encoding of RFC 9669.  A text is a string of 8-byte slots; `slots` cuts a byte
string into them and `Insn` is a slot's five fields.  A register field has four bits and names a
register only up to 10 (`reg?`).

The 64-bit immediate load is the one instruction of two slots (`Insn.width`).  Decoding a text
from its start gives the *boundaries* of the linear decode (`Boundary`), the slots at which an
instruction starts; a slot that is not one is the second half of a 64-bit load (`SecondSlot`).
Below the end of the text there is no third kind of slot (`boundary_or_secondSlot`).
-/

namespace Bpf

/-- One 8-byte slot of a text. -/
structure Insn where
  opcode : BitVec 8
  dst : BitVec 4
  src : BitVec 4
  off : BitVec 16
  imm : BitVec 32
  deriving DecidableEq, Repr

/-- A slot from its eight bytes: the second byte holds the two registers, low half first, and
the offset and the immediate are little-endian. -/
def Insn.ofBytes (b₀ b₁ b₂ b₃ b₄ b₅ b₆ b₇ : UInt8) : Insn where
  opcode := b₀.toBitVec
  dst := b₁.toBitVec.extractLsb' 0 4
  src := b₁.toBitVec.extractLsb' 4 4
  off := b₃.toBitVec ++ b₂.toBitVec
  imm := b₇.toBitVec ++ b₆.toBitVec ++ b₅.toBitVec ++ b₄.toBitVec

/-- The slots of a text; bytes past the last whole slot are ignored. -/
def slots : List UInt8 → List Insn
  | b₀ :: b₁ :: b₂ :: b₃ :: b₄ :: b₅ :: b₆ :: b₇ :: rest =>
      Insn.ofBytes b₀ b₁ b₂ b₃ b₄ b₅ b₆ b₇ :: slots rest
  | _ => []

theorem length_slots : ∀ text : List UInt8, (slots text).length = text.length / 8
  | b₀ :: b₁ :: b₂ :: b₃ :: b₄ :: b₅ :: b₆ :: b₇ :: rest => by
      simp only [slots, List.length_cons, length_slots rest]
      omega
  | [] | [_] | [_, _] | [_, _, _] | [_, _, _, _] | [_, _, _, _, _] | [_, _, _, _, _, _]
  | [_, _, _, _, _, _, _] => by simp [slots]

/-- A register. -/
abbrev Reg := Fin 11

/-- Numerals name registers. -/
instance instNeZeroRegCount : NeZero 11 := ⟨by decide⟩

/-- The register a four-bit field names. -/
def reg? (r : BitVec 4) : Option Reg :=
  if h : r.toNat < 11 then some ⟨r.toNat, h⟩ else none

namespace Insn

/-- The three low bits of the opcode. -/
def cls (ins : Insn) : BitVec 8 := ins.opcode &&& 0x07#8

/-- The addressing mode of a load or store. -/
def mode (ins : Insn) : BitVec 8 := ins.opcode &&& 0xe0#8

/-- The operation of an arithmetic or jump instruction. -/
def op (ins : Insn) : BitVec 8 := ins.opcode &&& 0xf0#8

/-- The source bit of an arithmetic or jump instruction: a register operand, not an immediate. -/
def isReg (ins : Insn) : Bool := ins.opcode &&& 0x08#8 != 0#8

/-- The number of bytes a load or store touches. -/
def accessBytes (ins : Insn) : Nat :=
  match (ins.opcode &&& 0x18#8).toNat with
  | 0x00 => 4
  | 0x08 => 2
  | 0x10 => 1
  | _    => 8

/-- The 64-bit immediate load, the one instruction of two slots. -/
def isLddw (ins : Insn) : Bool := ins.opcode == 0x18#8

/-- How many slots the instruction takes. -/
def width (ins : Insn) : Nat := if ins.isLddw then 2 else 1

theorem width_cases (ins : Insn) :
    ins.isLddw = false ∧ ins.width = 1 ∨ ins.isLddw = true ∧ ins.width = 2 := by
  unfold width; cases ins.isLddw <;> simp

theorem width_pos (ins : Insn) : 0 < ins.width := by
  rcases ins.width_cases with h | h <;> omega

theorem accessBytes_le (ins : Insn) : ins.accessBytes ≤ 8 := by
  unfold accessBytes; split <;> omega

end Insn

/-! ### The linear decode -/

/-- An instruction of the linear decode starts at `i`. -/
inductive Boundary (code : List Insn) : Nat → Prop where
  | start : Boundary code 0
  | next {i : Nat} {ins : Insn} (h : Boundary code i) (hi : code[i]? = some ins) :
      Boundary code (i + ins.width)

/-- `t` is the second half of a 64-bit load of the linear decode. -/
def SecondSlot (code : List Insn) (t : Nat) : Prop :=
  ∃ i ins, Boundary code i ∧ code[i]? = some ins ∧ ins.isLddw = true ∧ t = i + 1

theorem not_secondSlot {code : List Insn} {t : Nat} (h : ∀ ins ∈ code, ins.isLddw = false) :
    ¬ SecondSlot code t := by
  rintro ⟨i, ins, -, hi, hl, -⟩
  rw [h ins (List.mem_of_getElem? hi)] at hl
  cases hl

/-- **Every slot is a boundary or a second half.** -/
theorem boundary_or_secondSlot {code : List Insn} :
    ∀ {t : Nat}, t ≤ code.length → Boundary code t ∨ SecondSlot code t
  | 0, _ => .inl .start
  | t + 1, h => by
      have hlt : t < code.length := by omega
      have hget : code[t]? = some code[t] := List.getElem?_eq_getElem hlt
      rcases boundary_or_secondSlot (Nat.le_of_lt hlt) with hb | ⟨i, ins, hb, hi, hl, rfl⟩
      · by_cases hl : code[t].isLddw = true
        · exact .inr ⟨t, _, hb, hget, hl, rfl⟩
        · refine .inl ?_
          have hw : code[t].width = 1 := by simp [Insn.width, hl]
          simpa only [hw] using Boundary.next hb hget
      · refine .inl ?_
        have hw : ins.width = 2 := by simp [Insn.width, hl]
        simpa only [hw] using Boundary.next hb hi

end Bpf

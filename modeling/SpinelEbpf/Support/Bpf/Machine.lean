import SpinelEbpf.Support.Bpf.Insn

/-!
# Support — BPF — Machine

The machine of RFC 9669 for one function: eleven 64-bit registers, a byte memory and a program
counter that counts slots.  The 32-bit arithmetic forms work on the low halves and zero-extend
(`aluValue`); a taken branch goes to `pc + 1 + off` (`disp`).  The one exception of the RFC, the
unconditional jump of the 32-bit class, takes its displacement from the immediate; `long` says
whether the machine has that exception.

`Step` has no step at an exit, at a program-local call, and at what the RFC does not define
(a register field above 10, an unknown operation).  A call leaves `r6`–`r10` alone and everything
else unspecified.  `Insn.access` is the memory a load, store or atomic touches, defined apart
from `Step` so that it speaks about an instruction that is about to execute.
-/

namespace Bpf

open Function

abbrev Regs := Reg → BitVec 64

abbrev Mem := BitVec 64 → BitVec 8

structure State where
  pc : Nat
  regs : Regs
  mem : Mem

/-! ### Memory -/

/-- `n` bytes at `a`, little-endian. -/
def readLE (m : Mem) (a : BitVec 64) : Nat → BitVec 64
  | 0     => 0#64
  | n + 1 => (m a).setWidth 64 ||| (readLE m (a + 1#64) n <<< 8)

/-- The `n` low bytes of `v` written at `a`. -/
def writeLE (m : Mem) (a : BitVec 64) (v : BitVec 64) : Nat → Mem
  | 0     => m
  | n + 1 => writeLE (update m a (v.setWidth 8)) (a + 1#64) (v >>> 8) n

/-- The low `8 * n` bits of `v`, sign-extended. -/
def signLow (v : BitVec 64) (n : Nat) : BitVec 64 := (v.setWidth (8 * n)).signExtend 64

/-! ### Arithmetic -/

/-- The arithmetic operations, by their code.  `off` selects the signed forms of division and
remainder; a division by zero is zero and a remainder by zero is the dividend. -/
def aluOp {w : Nat} (op : BitVec 8) (off : BitVec 16) (a b : BitVec w) : Option (BitVec w) :=
  match op.toNat with
  | 0x00 => some (a + b)
  | 0x10 => some (a - b)
  | 0x20 => some (a * b)
  | 0x30 => if off = 0#16 then some (a / b) else if off = 1#16 then some (a.sdiv b) else none
  | 0x40 => some (a ||| b)
  | 0x50 => some (a &&& b)
  | 0x60 => some (a <<< (b.toNat % w))
  | 0x70 => some (a >>> (b.toNat % w))
  | 0x80 => some (-a)
  | 0x90 => if off = 0#16 then some (a % b) else if off = 1#16 then some (a.srem b) else none
  | 0xa0 => some (a ^^^ b)
  | 0xc0 => some (a.sshiftRight (b.toNat % w))
  | _    => none

/-- The low `n` bytes of `v`, reversed. -/
def byteSwap (v : BitVec 64) : Nat → BitVec 64
  | 0     => 0#64
  | n + 1 => ((v.setWidth 8).setWidth 64 <<< (8 * n)) ||| byteSwap (v >>> 8) n

variable {a b : BitVec 64} {ins : Insn} {long : Bool} {s s' : State} {code : List Insn}

namespace Insn

/-- The second operand: a register, or the sign-extended immediate. -/
def operand (ins : Insn) (regs : Regs) : Option (BitVec 64) :=
  if ins.isReg then (reg? ins.src).map regs else some (ins.imm.signExtend 64)

/-- The 64-bit move; with a register operand the offset selects a sign-extending form. -/
def mov64 (ins : Insn) (b : BitVec 64) : Option (BitVec 64) :=
  if ins.off = 0#16 ∨ ins.isReg = false then some b
  else if ins.off = 8#16 then some (signLow b 1)
  else if ins.off = 16#16 then some (signLow b 2)
  else if ins.off = 32#16 then some (signLow b 4)
  else none

/-- The 32-bit move: the low half, zero-extended, after the sign-extending forms. -/
def mov32 (ins : Insn) (b : BitVec 64) : Option (BitVec 64) :=
  if ins.off = 32#16 ∧ ins.isReg = true then none
  else (ins.mov64 b).map fun v => (v.setWidth 32).setWidth 64

/-- Byte-order conversion, on a little-endian machine. -/
def byteOrder (ins : Insn) (a : BitVec 64) : Option (BitVec 64) :=
  let n := ins.imm.toNat / 8
  if ins.imm = 16#32 ∨ ins.imm = 32#32 ∨ ins.imm = 64#32 then
    some (if ins.isReg ∨ ins.cls = 0x07#8 then byteSwap a n
      else if n = 8 then a else (a.setWidth (8 * n)).setWidth 64)
  else none

/-- What an arithmetic instruction writes, from the value of its destination and its operand. -/
def aluValue (ins : Insn) (a b : BitVec 64) : Option (BitVec 64) :=
  if ins.cls = 0x07#8 then
    if ins.op = 0xb0#8 then ins.mov64 b
    else if ins.op = 0xd0#8 then ins.byteOrder a
    else aluOp ins.op ins.off a b
  else if ins.cls = 0x04#8 then
    if ins.op = 0xb0#8 then ins.mov32 b
    else if ins.op = 0xd0#8 then ins.byteOrder a
    else (aluOp ins.op ins.off (a.setWidth 32) (b.setWidth 32)).map (·.setWidth 64)
  else none

/-! ### Control -/

/-- The tests of the conditional jumps, by their code. -/
def jumpTest {w : Nat} (op : BitVec 8) (a b : BitVec w) : Option Bool :=
  match op.toNat with
  | 0x10 => some (a == b)
  | 0x20 => some (b.ult a)
  | 0x30 => some (b.ule a)
  | 0x40 => some (a &&& b != 0#w)
  | 0x50 => some (a != b)
  | 0x60 => some (b.slt a)
  | 0x70 => some (b.sle a)
  | 0xa0 => some (a.ult b)
  | 0xb0 => some (a.ule b)
  | 0xc0 => some (a.slt b)
  | 0xd0 => some (a.sle b)
  | _    => none

/-- The unconditional jump, in either jump class. -/
def isJa (ins : Insn) : Bool := ins.opcode == 0x05#8 || ins.opcode == 0x06#8

/-- A call: the operation in either jump class, with an immediate or a register operand. -/
def isCall (ins : Insn) : Bool :=
  (ins.cls == 0x05#8 || ins.cls == 0x06#8) && ins.op == 0x80#8

/-- Whether a jump is taken, from the value of its destination register and its operand. -/
def taken (ins : Insn) (a b : BitVec 64) : Option Bool :=
  if ins.isJa then some true
  else if ins.cls = 0x05#8 then jumpTest ins.op a b
  else if ins.cls = 0x06#8 then jumpTest ins.op (a.setWidth 32) (b.setWidth 32)
  else none

theorem cls_of_taken {t : Bool} (h : ins.taken a b = some t) :
    ins.cls = 0x05#8 ∨ ins.cls = 0x06#8 := by
  unfold taken at h
  split at h
  · rename_i hj
    rcases (by simpa [isJa] using hj : ins.opcode = 0x05#8 ∨ ins.opcode = 0x06#8) with ho | ho <;>
      simp [cls, ho]
  split at h
  · exact .inl ‹_›
  split at h
  · exact .inr ‹_›
  · cases h

theorem opcode_ne_of_not_call (h : ins.isCall = false) : ins.opcode ≠ 0x85#8 := by
  intro ho; simp [isCall, cls, op, ho] at h

/-- A jump is no call and no exit. -/
theorem opcode_of_taken {t : Bool} (h : ins.taken a b = some t) :
    ins.opcode ≠ 0x95#8 ∧ ins.isCall = false := by
  have hop {o : BitVec 8} (ho : ins.op = o) (hn : o = 0x90#8 ∨ o = 0x80#8) : False := by
    have hj : ins.isJa = false := by
      refine Bool.eq_false_iff.mpr fun hj => ?_
      simp only [isJa, Bool.or_eq_true, beq_iff_eq] at hj
      rcases hj with hj | hj <;> simp only [op, hj] at ho <;> subst ho <;> simp at hn
    rcases hn with rfl | rfl <;> simp [taken, hj, jumpTest, ho] at h
  refine ⟨fun ho => hop (by simp [op, ho]) (.inl rfl), Bool.eq_false_iff.mpr fun hc => ?_⟩
  simp only [isCall, Bool.and_eq_true, beq_iff_eq] at hc
  exact hop hc.2 (.inr rfl)

/-- The displacement of a jump. -/
def disp (long : Bool) (ins : Insn) : Int :=
  if long ∧ ins.opcode = 0x06#8 then ins.imm.toInt else ins.off.toInt

/-! ### Memory accesses -/

/-- The base register of a load, store or atomic. -/
def base? (ins : Insn) : Option Reg :=
  if ins.cls = 0x01#8 ∧ (ins.mode = 0x60#8 ∨ ins.mode = 0x80#8) then reg? ins.src
  else if (ins.cls = 0x02#8 ∨ ins.cls = 0x03#8) ∧ ins.mode = 0x60#8 then reg? ins.dst
  else if ins.cls = 0x03#8 ∧ ins.mode = 0xc0#8 then reg? ins.dst
  else none

/-- The first address a load, store or atomic touches; it touches `accessBytes` of them. -/
def access (ins : Insn) (regs : Regs) : Option (BitVec 64) :=
  ins.base?.map fun r => regs r + ins.off.signExtend 64

theorem cls_of_base {r : Reg} (h : ins.base? = some r) :
    (ins.cls = 0x01#8 ∨ ins.cls = 0x02#8 ∨ ins.cls = 0x03#8) ∧
      reg? (if ins.cls = 0x01#8 then ins.src else ins.dst) = some r := by
  unfold base? at h
  split at h
  · rename_i hc
    exact ⟨.inl hc.1, by rw [if_pos hc.1]; exact h⟩
  split at h
  · rename_i hc
    refine ⟨.inr hc.1, ?_⟩
    rw [if_neg (by rcases hc.1 with hc | hc <;> simp [hc])]
    exact h
  split at h
  · rename_i hc
    refine ⟨.inr (.inr hc.1), ?_⟩
    rw [if_neg (by simp [hc.1])]
    exact h
  · cases h

/-- What an atomic stores, and what it puts in its source register or `r0`. -/
def atomicOp (ins : Insn) (old src r0 : BitVec 64) : Option (BitVec 64) :=
  match ins.imm.toNat with
  | 0x00 | 0x01 => some (old + src)
  | 0x40 | 0x41 => some (old ||| src)
  | 0x50 | 0x51 => some (old &&& src)
  | 0xa0 | 0xa1 => some (old ^^^ src)
  | 0xe1 => some src
  | 0xf1 => some (if old = r0 then src else old)
  | _ => none

/-- The registers after an atomic that read `old`: a fetching form returns it. -/
def atomicRegs (ins : Insn) (regs : Regs) (src : Reg) (old : BitVec 64) : Regs :=
  if ins.imm = 0xf1#32 then update regs 0 old
  else if ins.imm &&& 1#32 = 1#32 then update regs src old
  else regs

end Insn

/-! ### Steps -/

/-- One step of the machine on the slots `code`. -/
inductive Step (long : Bool) (code : List Insn) : State → State → Prop where
  | alu {s : State} {ins : Insn} {d : Reg} {b v : BitVec 64} (hi : code[s.pc]? = some ins)
      (hd : reg? ins.dst = some d) (hb : ins.operand s.regs = some b)
      (hv : ins.aluValue (s.regs d) b = some v) :
      Step long code s ⟨s.pc + 1, update s.regs d v, s.mem⟩
  -- a non-zero source field makes the loaded value the platform's: a map, a variable, a function
  | lddw {s : State} {ins nxt : Insn} {d : Reg} {v : BitVec 64} (hi : code[s.pc]? = some ins)
      (hl : ins.isLddw = true) (hn : code[s.pc + 1]? = some nxt) (hd : reg? ins.dst = some d)
      (hv : ins.src = 0#4 → v = nxt.imm ++ ins.imm) :
      Step long code s ⟨s.pc + 2, update s.regs d v, s.mem⟩
  | load {s : State} {ins : Insn} {d : Reg} {a : BitVec 64} (hi : code[s.pc]? = some ins)
      (hc : ins.cls = 0x01#8) (hd : reg? ins.dst = some d) (ha : ins.access s.regs = some a) :
      Step long code s ⟨s.pc + 1, update s.regs d
        (if ins.mode = 0x80#8 then signLow (readLE s.mem a ins.accessBytes) ins.accessBytes
          else readLE s.mem a ins.accessBytes), s.mem⟩
  | storeImm {s : State} {ins : Insn} {a : BitVec 64} (hi : code[s.pc]? = some ins)
      (hc : ins.cls = 0x02#8) (ha : ins.access s.regs = some a) :
      Step long code s
        ⟨s.pc + 1, s.regs, writeLE s.mem a (ins.imm.signExtend 64) ins.accessBytes⟩
  | storeReg {s : State} {ins : Insn} {r : Reg} {a : BitVec 64} (hi : code[s.pc]? = some ins)
      (hc : ins.cls = 0x03#8) (hm : ins.mode = 0x60#8) (hr : reg? ins.src = some r)
      (ha : ins.access s.regs = some a) :
      Step long code s ⟨s.pc + 1, s.regs, writeLE s.mem a (s.regs r) ins.accessBytes⟩
  | atomic {s : State} {ins : Insn} {r : Reg} {a v : BitVec 64} (hi : code[s.pc]? = some ins)
      (hc : ins.cls = 0x03#8) (hm : ins.mode = 0xc0#8) (hr : reg? ins.src = some r)
      (ha : ins.access s.regs = some a)
      (hv : ins.atomicOp (readLE s.mem a ins.accessBytes) (s.regs r) (s.regs 0) = some v) :
      Step long code s
        ⟨s.pc + 1, ins.atomicRegs s.regs r (readLE s.mem a ins.accessBytes),
          writeLE s.mem a v ins.accessBytes⟩
  | jump {s : State} {ins : Insn} {d : Reg} {b : BitVec 64} {t : Nat}
      (hi : code[s.pc]? = some ins) (hd : reg? ins.dst = some d)
      (hb : ins.operand s.regs = some b) (ht : ins.taken (s.regs d) b = some true)
      (hpc : (t : Int) = s.pc + 1 + ins.disp long) :
      Step long code s ⟨t, s.regs, s.mem⟩
  | fall {s : State} {ins : Insn} {d : Reg} {b : BitVec 64} (hi : code[s.pc]? = some ins)
      (hd : reg? ins.dst = some d) (hb : ins.operand s.regs = some b)
      (ht : ins.taken (s.regs d) b = some false) :
      Step long code s ⟨s.pc + 1, s.regs, s.mem⟩
  | call {s : State} {ins : Insn} {regs : Regs} {mem : Mem} (hi : code[s.pc]? = some ins)
      (hc : ins.isCall = true) (hl : ins.src ≠ 1#4) (hr : ∀ r : Reg, 5 < r → regs r = s.regs r) :
      Step long code s ⟨s.pc + 1, regs, mem⟩

/-- The runs of the machine. -/
abbrev Steps (long : Bool) (code : List Insn) : State → State → Prop :=
  Relation.ReflTransGen (Step long code)

theorem Step.get (h : Step long code s s') :
    ∃ ins, code[s.pc]? = some ins := by
  cases h <;> exact ⟨_, ‹_›⟩

theorem Step.pc_lt (h : Step long code s s') :
    s.pc < code.length := by
  obtain ⟨ins, hi⟩ := h.get
  exact (List.getElem?_eq_some_iff.mp hi).1

theorem cls_of_aluValue {v : BitVec 64} (h : ins.aluValue a b = some v) :
    ins.cls = 0x04#8 ∨ ins.cls = 0x07#8 := by
  unfold Insn.aluValue at h
  by_cases h7 : ins.cls = 0x07#8
  · exact .inr h7
  · rw [if_neg h7] at h
    by_cases h4 : ins.cls = 0x04#8
    · exact .inl h4
    · rw [if_neg h4] at h; cases h

theorem cls_of_isCall (h : ins.isCall = true) :
    ins.cls = 0x05#8 ∨ ins.cls = 0x06#8 := by
  simp only [Insn.isCall, Bool.and_eq_true, Bool.or_eq_true, beq_iff_eq] at h
  exact h.1

theorem Insn.isLddw_of_cls (h : ins.cls ≠ 0x00#8) : ins.isLddw = false := by
  refine Bool.eq_false_iff.mpr fun hl => h ?_
  simp only [Insn.isLddw, beq_iff_eq] at hl
  simp [Insn.cls, hl]

theorem Insn.isJa_of_cls (h₅ : ins.cls ≠ 0x05#8) (h₆ : ins.cls ≠ 0x06#8) :
    ins.isJa = false := by
  refine Bool.eq_false_iff.mpr fun hj => ?_
  simp only [Insn.isJa, Bool.or_eq_true, beq_iff_eq] at hj
  rcases hj with hj | hj <;> simp [Insn.cls, hj] at h₅ h₆

/-- A step goes to the next instruction, or takes a jump. -/
theorem Step.next_or_jump (h : Step long code s s') :
    ∃ ins, code[s.pc]? = some ins ∧
      ((ins.isJa = false ∧ s'.pc = s.pc + ins.width) ∨
       ∃ a b, ins.taken a b = some true ∧ (s'.pc : Int) = s.pc + 1 + ins.disp long) := by
  have next {ins : Insn} (hc : ins.cls ≠ 0x00#8) (hj : ins.isJa = false) :
      ins.isJa = false ∧ s.pc + 1 = s.pc + ins.width :=
    ⟨hj, by simp [Insn.width, Insn.isLddw_of_cls hc]⟩
  have plain {ins : Insn} (hc : ins.cls ≠ 0x00#8) (h₅ : ins.cls ≠ 0x05#8)
      (h₆ : ins.cls ≠ 0x06#8) := next hc (Insn.isJa_of_cls h₅ h₆)
  cases h with
  | jump hi _ _ ht hpc => exact ⟨_, hi, .inr ⟨_, _, ht, hpc⟩⟩
  | lddw hi hl =>
      refine ⟨_, hi, .inl ⟨?_, by simp [Insn.width, hl]⟩⟩
      simp only [Insn.isLddw, beq_iff_eq] at hl
      simp [Insn.isJa, hl]
  | alu hi _ _ hv =>
      refine ⟨_, hi, .inl ?_⟩
      rcases cls_of_aluValue hv with hc | hc <;> exact plain (by simp [hc]) (by simp [hc]) (by simp [hc])
  | load hi hc | storeImm hi hc | storeReg hi hc | atomic hi hc =>
      exact ⟨_, hi, .inl (plain (by simp [hc]) (by simp [hc]) (by simp [hc]))⟩
  | fall hi _ _ ht =>
      refine ⟨_, hi, .inl (next ?_ ?_)⟩
      · rcases Insn.cls_of_taken ht with hc | hc <;> simp [hc]
      · refine Bool.eq_false_iff.mpr fun hj => ?_
        simp [Insn.taken, hj] at ht
  | call hi hc =>
      refine ⟨_, hi, .inl (next ?_ ?_)⟩
      · rcases cls_of_isCall hc with hc | hc <;> simp [hc]
      · refine Bool.eq_false_iff.mpr fun hj => ?_
        simp only [Insn.isJa, Bool.or_eq_true, beq_iff_eq] at hj
        rcases hj with hj | hj <;> simp [Insn.isCall, Insn.op, hj] at hc

end Bpf

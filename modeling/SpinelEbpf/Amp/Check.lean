import SpinelEbpf.Amp.Abi
import SpinelEbpf.Support.Bpf.Insn

/-!
# Amp — the bytecode checker

`amp_check.c` inspects a probe's text before it is shipped to the real-time core.  It walks the
text once, from the first slot to the last, and follows every instruction in turn, branches
included; along the way it tracks which registers hold a constant and which hold the frame
pointer (`Regv`).  `walkInsn` is the body of that loop and `ampCheckLoop` the loop.

The C array `reg` has eleven entries and the source field has four bits, so a field above 10
reads past the array.  `beyond` stands for what the walk finds there.
-/

namespace SpinelEbpf.Amp
open Bpf

/-- `struct regv`'s `known`. -/
inductive Known where
  | unknown
  | constant
  | stack
  deriving DecidableEq, Repr

/-- `struct regv`. -/
structure Regv where
  known : Known
  val : BitVec 64
  deriving DecidableEq, Repr

/-- The allowlist of helper ids. -/
def ampHelperAllowed (id : BitVec 32) : Bool := id == 1#32 || id == 2#32

/-- `AMP_STACK_BYTES`. -/
def ampStackBytes : Int := 512

def costAlu : UInt32 := 1
def costBranch : UInt32 := 2
def costMem : UInt32 := 4
def costLddw : UInt32 := 2

/-- Helpers are charged as a unit. -/
def ampHelperCost (id : BitVec 32) : UInt32 :=
  if id = 1#32 then 60 else if id = 2#32 then 12 else 0

/-! ### Messages -/

/-- `%x`. -/
def hex (n : Nat) : String := String.ofList (Nat.toDigits 16 n)

/-- `%02x`, `%08x`. -/
def hexPad (w n : Nat) : String :=
  String.ofList (List.replicate (w - (Nat.toDigits 16 n).length) '0') ++ hex n

/-- `%+d`. -/
def signed (z : Int) : String := if 0 ≤ z then "+" ++ toString z else toString z

def frameMessage (i : Nat) (how : String) (off : Int) : String :=
  "insn " ++ toString i ++ ": " ++ how ++ " at r10" ++ signed off ++
    " is outside the program's 512-byte stack frame [r10-512, r10)"

def carveoutMessage (b : Board) (i : Nat) (how : String) (addr : BitVec 64) : String :=
  "insn " ++ toString i ++ ": " ++ how ++ " at 0x" ++ hex addr.toNat ++
    " outside the fixed ABI ivar carveout [0x" ++ hexPad 8 b.ivarsBase ++ ", 0x" ++
    hexPad 8 (b.ivarsBase + b.ivarsSize) ++ ")"

def unverifiableMessage (i : Nat) (how : String) : String :=
  "insn " ++ toString i ++ ": " ++ how ++
    " via unverifiable (non-constant, non-stack) base register"

def localCallMessage (i : Nat) : String :=
  "insn " ++ toString i ++
    ": local/pseudo call not allowed (amp is 1 program = 1 function)"

def helperMessage (i : Nat) (imm : Int) : String :=
  "insn " ++ toString i ++ ": call to disallowed helper id " ++ toString imm ++
    " (allowed: 1=amp_emit, 2=amp_ktime)"

def modeMessage (i : Nat) (mode : BitVec 8) : String :=
  "insn " ++ toString i ++ ": memory access with addressing mode 0x" ++ hexPad 2 mode.toNat ++
    " (only BPF_MEM 0x60 is understood; atomics and sign-extending " ++
    "or packet-relative loads are not part of the amp subset)"

def ldMessage (i : Nat) (opcode : BitVec 8) : String :=
  "insn " ++ toString i ++ ": unsupported BPF_LD form (opcode 0x" ++ hexPad 2 opcode.toNat ++ ")"

def backwardMessage (i : Nat) (off : Int) : String :=
  "insn " ++ toString i ++ ": backward branch off=" ++ toString off ++
    " (unbounded loop; amp v0 is loop-free)"

def aluMessage (i : Nat) (opcode : BitVec 8) : String :=
  "insn " ++ toString i ++ ": unknown ALU operation (opcode 0x" ++ hexPad 2 opcode.toNat ++ ")"

def subsetMessage (i : Nat) (opcode : BitVec 8) : String :=
  "insn " ++ toString i ++ ": instruction 0x" ++ hexPad 2 opcode.toNat ++
    " is outside the amp subset (the checker refuses what it cannot interpret)"

/-! ### The walk -/

/-- Whether an access through `base` at `off` starts inside the frame or the carveout. -/
def checkAddr (b : Board) (base : Regv) (off : BitVec 16) (i : Nat) (how : String) :
    Except String Unit :=
  match base.known with
  | .stack =>
      if off.toInt < -ampStackBytes ∨ off.toInt ≥ 0 then .error (frameMessage i how off.toInt)
      else .ok ()
  | .constant =>
      let addr := base.val + off.signExtend 64
      if b.ivarsBase ≤ addr.toNat ∧ addr.toNat < b.ivarsBase + b.ivarsSize then .ok ()
      else .error (carveoutMessage b i how addr)
  | .unknown => .error (unverifiableMessage i how)

abbrev RegFile := Reg → Regv

/-- The state of the walk: what it knows of each register, and the cost so far. -/
structure Walk where
  reg : RegFile
  cost : UInt32

/-- On entry `r10` is the frame pointer and nothing else is known. -/
def walkInit : Walk where
  reg := Function.update (fun _ => ⟨.unknown, 0#64⟩) 10 ⟨.stack, 0#64⟩
  cost := 0

/-- `reg[r]`, for a four-bit `r`. -/
def lookup (beyond : BitVec 4 → Regv) (reg : RegFile) (r : BitVec 4) : Regv :=
  match reg? r with
  | some r => reg r
  | none   => beyond r

/-- `if (dst < 11) reg[dst] = v`. -/
def assign (reg : RegFile) (dst : BitVec 4) (v : Regv) : RegFile :=
  match reg? dst with
  | some d => Function.update reg d v
  | none   => reg

/-- `if (dst < 11) reg[dst].known = 0`. -/
def forget (reg : RegFile) (dst : BitVec 4) : RegFile :=
  match reg? dst with
  | some d => Function.update reg d { reg d with known := .unknown }
  | none   => reg

/-- `r0` is the call's result and `r1`–`r5` are clobbered. -/
def clobber (reg : RegFile) : RegFile := fun r =>
  if r ≤ 5 then { reg r with known := .unknown } else reg r

/-- Whether `dst` is a register whose tracked value is a constant. -/
def isConstant (reg : RegFile) (dst : BitVec 4) : Bool :=
  match reg? dst with
  | some d => (reg d).known == .constant
  | none   => false

/-- The memory classes; only `BPF_MEM` addressing is understood. -/
def walkMemory (b : Board) (beyond : BitVec 4 → Regv) (i : Nat) (ins : Insn) (w : Walk) :
    Except String Walk :=
  if ins.mode ≠ 0x60#8 then .error (modeMessage i ins.mode)
  else if ins.cls = 0x01#8 then do
    checkAddr b (lookup beyond w.reg ins.src) ins.off i "load"
    return ⟨forget w.reg ins.dst, w.cost + costMem⟩
  else if ins.cls = 0x02#8 ∨ ins.cls = 0x03#8 then do
    checkAddr b (lookup beyond w.reg ins.dst) ins.off i "store"
    return ⟨w.reg, w.cost + costMem⟩
  else .error (ldMessage i ins.opcode)

/-- The body of the loop at slot `i`, where `nxt` is the slot after it. -/
def walkInsn (b : Board) (beyond : BitVec 4 → Regv) (i : Nat) (ins : Insn) (nxt : Option Insn)
    (w : Walk) : Except String Walk :=
  if ins.opcode = 0x18#8 then
    let hi := match nxt with
      | some n => n.imm
      | none   => 0#32
    .ok ⟨assign w.reg ins.dst ⟨.constant, hi ++ ins.imm⟩, w.cost + costLddw⟩
  else if ins.opcode = 0x85#8 then
    if ins.src = 1#4 then .error (localCallMessage i)
    else if ampHelperAllowed ins.imm = false then .error (helperMessage i ins.imm.toInt)
    else .ok ⟨clobber w.reg, w.cost + ampHelperCost ins.imm⟩
  else if ins.opcode = 0x95#8 then .ok w
  else if ins.cls = 0x00#8 ∨ ins.cls = 0x01#8 ∨ ins.cls = 0x02#8 ∨ ins.cls = 0x03#8 then
    walkMemory b beyond i ins w
  else if ins.opcode = 0xb7#8 ∨ ins.opcode = 0xb4#8 then
    let v := if ins.opcode = 0xb7#8 then ins.imm.signExtend 64 else ins.imm.setWidth 64
    .ok ⟨assign w.reg ins.dst ⟨.constant, v⟩, w.cost + costAlu⟩
  else if ins.opcode = 0xbf#8 ∨ ins.opcode = 0xbc#8 then
    .ok ⟨assign w.reg ins.dst (lookup beyond w.reg ins.src), w.cost + costAlu⟩
  else if (ins.opcode = 0x07#8 ∨ ins.opcode = 0x04#8) ∧ isConstant w.reg ins.dst = true then
    let old := lookup beyond w.reg ins.dst
    .ok ⟨assign w.reg ins.dst ⟨.constant, old.val + ins.imm.signExtend 64⟩, w.cost + costAlu⟩
  else if ins.cls = 0x05#8 ∨ ins.cls = 0x06#8 then
    if ins.off.toInt < 0 then .error (backwardMessage i ins.off.toInt)
    else .ok ⟨w.reg, w.cost + costBranch⟩
  else if ins.cls = 0x04#8 ∨ ins.cls = 0x07#8 then
    if ins.op > 0xd0#8 then .error (aluMessage i ins.opcode)
    else .ok ⟨forget w.reg ins.dst, w.cost + costAlu⟩
  else .error (subsetMessage i ins.opcode)

/-- The loop over the slots from `i` on; a 64-bit load consumes the slot after it. -/
def ampCheckLoop (b : Board) (beyond : BitVec 4 → Regv) :
    Nat → List Insn → Walk → Except String Walk
  | _, [], w => .ok w
  | i, ins :: rest, w =>
      match walkInsn b beyond i ins rest.head? w with
      | .error e => .error e
      | .ok w' =>
          if ins.isLddw then
            match rest with
            | [] => .ok w'
            | _ :: rest' => ampCheckLoop b beyond (i + 2) rest' w'
          else ampCheckLoop b beyond (i + 1) rest w'

/-- `amp_check_text`: the cost of an accepted text, or the reason for the rejection. -/
def ampCheckText (b : Board) (beyond : BitVec 4 → Regv) (text : List UInt8) :
    Except String UInt32 :=
  if text.length % 8 ≠ 0 then
    .error (".text length " ++ toString text.length ++ " not a multiple of 8")
  else (ampCheckLoop b beyond 0 (slots text) walkInit).map (·.cost)

end SpinelEbpf.Amp

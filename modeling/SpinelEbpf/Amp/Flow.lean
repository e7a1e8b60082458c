import SpinelEbpf.Amp.Walk
import SpinelEbpf.Support.Bpf.Machine

/-!
# Amp — control flow of accepted texts

The checker refuses a negative branch offset and a call outside its allowlist, at the slots the
linear walk visits.  A run of an accepted text therefore moves forward and calls only the two
helpers (`step_forward`, `call_plain`), as long as the slots it executes are those the walk
visited and decoded as the machine does.  There are two ways out.  A branch may land on the
second slot of a 64-bit load, which the walk skips.  And some encodings mean more to the machine
than to the walk: the jump whose displacement is its immediate, and the call forms beside
opcode `0x85`, which the walk takes for branches.
-/

namespace SpinelEbpf.Amp
open Bpf

variable {b : Board} {beyond : BitVec 4 → Regv} {code : List Insn} {text : List UInt8}
  {cost : UInt32}

/-- The slot about to execute is the long jump with a negative displacement. -/
def LongBack (code : List Insn) (s : State) : Prop :=
  ∃ ins, code[s.pc]? = some ins ∧ ins.opcode = 0x06#8 ∧ ins.imm.toInt < 0

/-- A taken branch of an accepted text, read at the slot the walk read it. -/
theorem Accepts.off_nonneg {i : Nat} {ins : Insn} {x y : BitVec 64} {t : Bool}
    (hacc : Accepts b beyond code) (hb : Boundary code i) (hi : code[i]? = some ins)
    (ht : ins.taken x y = some t) : 0 ≤ ins.off.toInt := by
  obtain ⟨w, w', -, hw⟩ := hacc.walked hb hi
  rcases hw.jumps (Insn.cls_of_taken ht) with ⟨ho, -⟩ | ho | ⟨-, -, hoff, -⟩
  · simp [Insn.taken, Insn.isJa, Insn.cls, Insn.op, Insn.jumpTest, ho] at ht
  · simp [Insn.taken, Insn.isJa, Insn.cls, Insn.op, Insn.jumpTest, ho] at ht
  · exact hoff

/-- **A step moves forward**, unless it executes a backward long jump. -/
theorem step_forward {s s' : State} (hacc : Accepts b beyond code) (hb : Boundary code s.pc)
    (h : Step true code s s') : s.pc < s'.pc ↔ ¬ LongBack code s := by
  obtain ⟨ins, hi, ⟨hj, hpc⟩ | ⟨x, y, ht, hpc⟩⟩ := h.next_or_jump
  · have hp := ins.width_pos
    refine iff_of_true (by omega) ?_
    rintro ⟨ins', hi', ho, -⟩
    obtain rfl := Option.some.inj (hi.symm.trans hi')
    simp [Insn.isJa, ho] at hj
  · have hoff := hacc.off_nonneg hb hi ht
    by_cases ho : ins.opcode = 0x06#8
    · have hneg : LongBack code s ↔ ins.imm.toInt < 0 := by simp [LongBack, hi, ho]
      simp only [Insn.disp, ho, and_self, if_true] at hpc
      rw [hneg]
      omega
    · have hneg : ¬ LongBack code s := by simp [LongBack, hi, ho]
      simp only [Insn.disp, ho, and_false, if_false] at hpc
      exact iff_of_true (by omega) hneg

/-! ### Runs -/

/-- A run from the first slot, by the states it visits, that never stands on a second slot. -/
structure AlignedRun (code : List Insn) (states : List State) : Prop where
  start : ∀ s ∈ states.head?, s.pc = 0
  steps : states.IsChain (Step true code)
  aligned : ∀ s ∈ states, ¬ SecondSlot code s.pc

theorem AlignedRun.boundary {states : List State} {s : State} {ins : Insn}
    (h : AlignedRun code states) (hs : s ∈ states) (hi : code[s.pc]? = some ins) :
    Boundary code s.pc :=
  (boundary_or_secondSlot (Nat.le_of_lt (List.getElem?_eq_some_iff.mp hi).1)).resolve_right
    (h.aligned s hs)

/-- Strictly increasing slots leave room for one step per slot. -/
theorem length_le_of_forward {s : State} :
    ∀ {states : List State}, (s :: states).IsChain (Step true code) →
      (s :: states).IsChain (fun s s' => s.pc < s'.pc) →
      states.length + min s.pc code.length ≤ code.length
  | [], _, _ => by simp only [List.length_nil]; omega
  | s' :: states, h, hpc => by
      rw [List.isChain_cons_cons] at h hpc
      have ih := length_le_of_forward h.2 hpc.2
      have hlt := h.1.pc_lt
      simp only [List.length_cons]
      omega

/-- A run moves forward exactly when no step of it is a backward long jump. -/
theorem forward_iff (hacc : Accepts b beyond code) :
    ∀ {states : List State}, states.IsChain (Step true code) →
      (∀ s ∈ states, ¬ SecondSlot code s.pc) →
      (states.IsChain (fun s s' => s.pc < s'.pc) ↔ ∀ s ∈ states.dropLast, ¬ LongBack code s)
  | [], _, _ | [_], _, _ => by simp
  | s :: s' :: states, h, hslot => by
      rw [List.isChain_cons_cons] at h
      have hb : Boundary code s.pc :=
        (boundary_or_secondSlot (Nat.le_of_lt h.1.pc_lt)).resolve_right (hslot s (by simp))
      have ih := forward_iff hacc h.2 fun t ht => hslot t (List.mem_cons_of_mem _ ht)
      rw [List.isChain_cons_cons, ih, step_forward hacc hb h.1]
      simp

/-- **Accepted texts run forward and end.**  Of the runs that never stand on a second slot,
those that execute no backward long jump are exactly those that visit increasing slots, and they
take at most one step per slot. -/
theorem run_forward_iff {states : List State} (hacc : ampCheckText b beyond text = .ok cost)
    (hrun : AlignedRun (slots text) states) :
    ((states.map State.pc).Pairwise (· < ·) ↔
      ∀ s ∈ states.dropLast, ¬ LongBack (slots text) s) ∧
    ((∀ s ∈ states.dropLast, ¬ LongBack (slots text) s) →
      states.length ≤ text.length / 8 + 1) := by
  have hiff := forward_iff (accepts_of_ampCheckText hacc) hrun.steps hrun.aligned
  refine ⟨?_, fun h => ?_⟩
  · rw [← hiff, ← List.isChain_iff_pairwise, List.isChain_map]
  · cases states with
    | nil => simp
    | cons s states =>
        have hlen := length_le_of_forward hrun.steps (hiff.mpr h)
        rw [length_slots] at hlen
        simp only [List.length_cons]
        omega

/-- A move and the exit. -/
def moveExit : List UInt8 :=
  [0xb7, 0x00, 0, 0, 0x07, 0, 0, 0,
   0x95, 0x00, 0, 0, 0x00, 0, 0, 0]

/-- The run of `moveExit` from `s`. -/
theorem alignedRun_moveExit (s : State) (hs : s.pc = 0) :
    AlignedRun (slots moveExit) [s, ⟨1, Function.update s.regs 0 7#64, s.mem⟩] where
  start := by simp [hs]
  steps := by
    have h : Step true (slots moveExit) s ⟨s.pc + 1, Function.update s.regs 0 7#64, s.mem⟩ :=
      @Step.alu true (slots moveExit) s (Insn.ofBytes 0xb7 0 0 0 7 0 0 0) 0 7#64 7#64
        (by rw [hs]; rfl) rfl rfl rfl
    rw [hs] at h
    exact .cons_cons h (.singleton _)
  aligned _ _ := not_secondSlot (by decide)

theorem run_forward_moveExit :
    ([0, 1].Pairwise (· < ·) ↔ ∀ s ∈ [(⟨0, fun _ => 0#64, fun _ => 0#8⟩ : State)],
      ¬ LongBack (slots moveExit) s) ∧
    ((∀ s ∈ [(⟨0, fun _ => 0#64, fun _ => 0#8⟩ : State)], ¬ LongBack (slots moveExit) s) →
      2 ≤ 3) :=
  run_forward_iff (rfl : ampCheckText .imx95m7 (fun _ => ⟨.unknown, 0#64⟩) moveExit = .ok 1)
    (alignedRun_moveExit ⟨0, fun _ => 0#64, fun _ => 0#8⟩ rfl)

/-- The long jump to itself. -/
def longSelf : List UInt8 := [0x06, 0x00, 0, 0, 0xff, 0xff, 0xff, 0xff]

theorem longSelf_step (regs : Regs) (mem : Mem) :
    Step true (slots longSelf) ⟨0, regs, mem⟩ ⟨0, regs, mem⟩ :=
  @Step.jump true (slots longSelf) ⟨0, regs, mem⟩ (Insn.ofBytes 0x06 0 0 0 0xff 0xff 0xff 0xff) 0
    (-1#64) 0 rfl rfl rfl rfl rfl

/-- The walk reads the offset of the long jump, which is zero; the machine reads its immediate.
The text of one slot runs for more than one step, and in place. -/
theorem longSelf_loops :
    ampCheckText .imx95m7 (fun _ => ⟨.unknown, 0#64⟩) longSelf = .ok 2 ∧
    (List.replicate 4 (⟨0, fun _ => 0#64, fun _ => 0#8⟩ : State)).IsChain
      (Step true (slots longSelf)) ∧
    ¬ ((List.replicate 4 (⟨0, fun _ => 0#64, fun _ => 0#8⟩ : State)).map State.pc).Pairwise
      (· < ·) := by
  refine ⟨rfl, List.isChain_replicate_of_rel _ (longSelf_step _ _), ?_⟩
  simp [List.replicate_succ]

/-! ### Calls -/

/-- A plain call, by immediate, of one of the two helpers. -/
def PlainHelper (ins : Insn) : Prop :=
  ins.opcode = 0x85#8 ∧ ins.src = 0#4 ∧ (ins.imm = 1#32 ∨ ins.imm = 2#32)

/-- A call in the one encoding the allowlist looks at, with no platform-defined source field. -/
def ListedCall (ins : Insn) : Prop := ins.opcode = 0x85#8 ∧ ins.src.toNat ≤ 1

/-- At a slot the walk visited, the listed calls are exactly the plain helper calls. -/
theorem Accepts.call_plain {i : Nat} {ins : Insn} (hacc : Accepts b beyond code)
    (hb : Boundary code i) (hi : code[i]? = some ins) : ListedCall ins ↔ PlainHelper ins := by
  refine ⟨fun ⟨ho, hs⟩ => ?_, fun ⟨ho, hs, _⟩ => ⟨ho, by simp [hs]⟩⟩
  obtain ⟨w, w', -, hw⟩ := hacc.walked hb hi
  rcases hw.jumps (by simp [Insn.cls, ho]) with ⟨-, hne, ha, -⟩ | ho' | ⟨hne, -⟩
  · refine ⟨ho, ?_, by simpa [ampHelperAllowed] using ha⟩
    have : ins.src.toNat ≠ 1 := fun h => hne (BitVec.eq_of_toNat_eq h)
    exact BitVec.eq_of_toNat_eq (by simp; omega)
  · simp [ho] at ho'
  · exact absurd ho hne

/-- **Accepted texts call the two helpers.**  A run that never stands on a second slot makes only
plain calls of the two helpers exactly when every call it makes is a listed one. -/
theorem run_calls_plain_iff {states : List State} (hacc : ampCheckText b beyond text = .ok cost)
    (hrun : AlignedRun (slots text) states) :
    (∀ s ∈ states, ∀ ins, (slots text)[s.pc]? = some ins → ins.isCall = true → PlainHelper ins) ↔
    (∀ s ∈ states, ∀ ins, (slots text)[s.pc]? = some ins → ins.isCall = true →
      ListedCall ins) := by
  have hacc := accepts_of_ampCheckText hacc
  have hiff {s : State} {ins : Insn} (hs : s ∈ states) (hi : (slots text)[s.pc]? = some ins) :=
    hacc.call_plain (hrun.boundary hs hi) hi
  exact ⟨fun h s hs ins hi hc => (hiff hs hi).mpr (h s hs ins hi hc),
    fun h s hs ins hi hc => (hiff hs hi).mp (h s hs ins hi hc)⟩

/-- A read of the clock and the exit. -/
def ktimeExit : List UInt8 :=
  [0x85, 0x00, 0, 0, 0x02, 0, 0, 0,
   0x95, 0x00, 0, 0, 0x00, 0, 0, 0]

theorem run_calls_plain_ktimeExit :
    (∀ s ∈ [(⟨0, fun _ => 0#64, fun _ => 0#8⟩ : State)], ∀ ins,
      (slots ktimeExit)[s.pc]? = some ins → ins.isCall = true → PlainHelper ins) ↔
    (∀ s ∈ [(⟨0, fun _ => 0#64, fun _ => 0#8⟩ : State)], ∀ ins,
      (slots ktimeExit)[s.pc]? = some ins → ins.isCall = true → ListedCall ins) :=
  run_calls_plain_iff (rfl : ampCheckText .imx95m7 (fun _ => ⟨.unknown, 0#64⟩) ktimeExit = .ok 12)
    ⟨by simp, .singleton _, fun _ _ => not_secondSlot (by decide)⟩

/-- A call through `r6`. -/
def callThroughReg : List UInt8 := [0x8d, 0x06, 0, 0, 0, 0, 0, 0]

/-- The walk takes a call through a register for a forward branch. -/
theorem callThroughReg_executes :
    ampCheckText .imx95m7 (fun _ => ⟨.unknown, 0#64⟩) callThroughReg = .ok 2 ∧
    Step true (slots callThroughReg) ⟨0, fun _ => 0#64, fun _ => 0#8⟩
      ⟨1, fun _ => 0#64, fun _ => 0#8⟩ ∧
    ∃ ins, (slots callThroughReg)[0]? = some ins ∧ ins.isCall = true ∧ ¬ PlainHelper ins :=
  ⟨rfl,
    @Step.call true (slots callThroughReg) ⟨0, fun _ => 0#64, fun _ => 0#8⟩
      (Insn.ofBytes 0x8d 6 0 0 0 0 0 0) (fun _ => 0#64) (fun _ => 0#8) rfl rfl (by decide)
      fun _ _ => rfl,
    _, rfl, rfl, by simp [PlainHelper, Insn.ofBytes]⟩

end SpinelEbpf.Amp

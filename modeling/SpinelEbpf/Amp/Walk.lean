import SpinelEbpf.Amp.Check

/-!
# Amp — what an accepted text has passed

`Walked` lists, rule by rule, what the loop body accepts and what it leaves behind
(`walkInsn_ok`).  `WalksTo code i w` says that the walk stands at slot `i` with state `w`; on an
accepted text the walk reaches every boundary of the linear decode (`Accepts.walksTo`) and
accepts the instruction there (`Accepts.walked`).

Between two boundaries the walk changes only what the instructions between them assign
(`WalksTo.between`).
-/

namespace SpinelEbpf.Amp
open Function Bpf

/-- What the loop body does to an instruction it accepts. -/
inductive Walked (b : Board) (beyond : BitVec 4 → Regv) (i : Nat) (ins : Insn)
    (nxt : Option Insn) (w : Walk) : Walk → Prop where
  | lddw (ho : ins.opcode = 0x18#8) :
      Walked b beyond i ins nxt w
        ⟨assign w.reg ins.dst ⟨.constant, (nxt.elim 0#32 (·.imm)) ++ ins.imm⟩, w.cost + costLddw⟩
  | call (ho : ins.opcode = 0x85#8) (hs : ins.src ≠ 1#4) (ha : ampHelperAllowed ins.imm = true) :
      Walked b beyond i ins nxt w ⟨clobber w.reg, w.cost + ampHelperCost ins.imm⟩
  | exit (ho : ins.opcode = 0x95#8) : Walked b beyond i ins nxt w w
  | load (hc : ins.cls = 0x01#8) (hm : ins.mode = 0x60#8)
      (ha : checkAddr b (lookup beyond w.reg ins.src) ins.off i "load" = .ok ()) :
      Walked b beyond i ins nxt w ⟨forget w.reg ins.dst, w.cost + costMem⟩
  | store (hc : ins.cls = 0x02#8 ∨ ins.cls = 0x03#8) (hm : ins.mode = 0x60#8)
      (ha : checkAddr b (lookup beyond w.reg ins.dst) ins.off i "store" = .ok ()) :
      Walked b beyond i ins nxt w ⟨w.reg, w.cost + costMem⟩
  | movImm {v : BitVec 64}
      (hv : ins.opcode = 0xb7#8 ∧ v = ins.imm.signExtend 64 ∨
        ins.opcode = 0xb4#8 ∧ v = ins.imm.setWidth 64) :
      Walked b beyond i ins nxt w ⟨assign w.reg ins.dst ⟨.constant, v⟩, w.cost + costAlu⟩
  | movReg (ho : ins.opcode = 0xbf#8 ∨ ins.opcode = 0xbc#8) :
      Walked b beyond i ins nxt w
        ⟨assign w.reg ins.dst (lookup beyond w.reg ins.src), w.cost + costAlu⟩
  | addImm {d : Reg} (ho : ins.opcode = 0x07#8 ∨ ins.opcode = 0x04#8)
      (hd : reg? ins.dst = some d) (hk : (w.reg d).known = .constant) :
      Walked b beyond i ins nxt w
        ⟨update w.reg d ⟨.constant, (w.reg d).val + ins.imm.signExtend 64⟩,
          w.cost + costAlu⟩
  | branch (hc : ins.cls = 0x05#8 ∨ ins.cls = 0x06#8) (hcall : ins.opcode ≠ 0x85#8)
      (hexit : ins.opcode ≠ 0x95#8) (ho : 0 ≤ ins.off.toInt) :
      Walked b beyond i ins nxt w ⟨w.reg, w.cost + costBranch⟩
  | alu (hc : ins.cls = 0x04#8 ∨ ins.cls = 0x07#8) (ho : ins.op ≤ 0xd0#8) :
      Walked b beyond i ins nxt w ⟨forget w.reg ins.dst, w.cost + costAlu⟩

variable {b : Board} {beyond : BitVec 4 → Regv} {reg : RegFile} {d r : Reg} {dst : BitVec 4}
  {i : Nat} {w w' : Walk} {nxt : Option Insn} {ins : Insn} {code : List Insn}

theorem assign_eq {v : Regv} (h : reg? dst = some d) :
    assign reg dst v = update reg d v := by
  simp only [assign, h]

theorem forget_eq (h : reg? dst = some d) :
    forget reg dst = update reg d { reg d with known := .unknown } := by
  simp only [forget, h]

theorem lookup_eq {src : BitVec 4} (h : reg? src = some r) :
    lookup beyond reg src = reg r := by
  simp only [lookup, h]

theorem isConstant_iff :
    isConstant reg dst = true ↔ ∃ d, reg? dst = some d ∧ (reg d).known = .constant := by
  unfold isConstant
  cases reg? dst <;> simp

theorem walkMemory_ok (h : walkMemory b beyond i ins w = .ok w') :
    Walked b beyond i ins nxt w w' := by
  unfold walkMemory at h
  split at h
  · cases h
  rename_i hm
  have hm : ins.mode = 0x60#8 := not_not.mp hm
  split at h
  · rename_i hc
    cases ha : checkAddr b (lookup beyond w.reg ins.src) ins.off i "load" with
    | error e => rw [ha] at h; cases h
    | ok u =>
        rw [ha] at h; cases h
        exact .load hc hm ha
  split at h
  · rename_i hc
    cases ha : checkAddr b (lookup beyond w.reg ins.dst) ins.off i "store" with
    | error e => rw [ha] at h; cases h
    | ok u =>
        rw [ha] at h; cases h
        exact .store hc hm ha
  · cases h

/-- **The loop body, inverted.** -/
theorem walkInsn_ok (h : walkInsn b beyond i ins nxt w = .ok w') :
    Walked b beyond i ins nxt w w' := by
  unfold walkInsn at h
  by_cases ho : ins.opcode = 0x18#8
  · rw [if_pos ho] at h
    cases h
    cases nxt <;> exact .lddw ho
  rw [if_neg ho] at h
  by_cases hcall : ins.opcode = 0x85#8
  · rw [if_pos hcall] at h
    by_cases hs : ins.src = 1#4
    · rw [if_pos hs] at h; cases h
    rw [if_neg hs] at h
    by_cases ha : ampHelperAllowed ins.imm = false
    · rw [if_pos ha] at h; cases h
    rw [if_neg ha] at h
    cases h
    exact .call hcall hs (by simpa using ha)
  rw [if_neg hcall] at h
  by_cases hexit : ins.opcode = 0x95#8
  · rw [if_pos hexit] at h
    cases h; exact .exit hexit
  rw [if_neg hexit] at h
  by_cases hmem : ins.cls = 0x00#8 ∨ ins.cls = 0x01#8 ∨ ins.cls = 0x02#8 ∨ ins.cls = 0x03#8
  · rw [if_pos hmem] at h
    exact walkMemory_ok h
  rw [if_neg hmem] at h
  by_cases hmov : ins.opcode = 0xb7#8 ∨ ins.opcode = 0xb4#8
  · rw [if_pos hmov] at h
    cases h
    refine .movImm ?_
    rcases hmov with hmov | hmov <;> simp [hmov]
  rw [if_neg hmov] at h
  by_cases hreg : ins.opcode = 0xbf#8 ∨ ins.opcode = 0xbc#8
  · rw [if_pos hreg] at h
    cases h; exact .movReg hreg
  rw [if_neg hreg] at h
  by_cases hadd : (ins.opcode = 0x07#8 ∨ ins.opcode = 0x04#8) ∧ isConstant w.reg ins.dst = true
  · rw [if_pos hadd] at h
    obtain ⟨d, hd, hk⟩ := isConstant_iff.mp hadd.2
    cases h
    simpa only [assign_eq hd, lookup_eq hd] using Walked.addImm hadd.1 hd hk
  rw [if_neg hadd] at h
  by_cases hbr : ins.cls = 0x05#8 ∨ ins.cls = 0x06#8
  · rw [if_pos hbr] at h
    by_cases hoff : ins.off.toInt < 0
    · rw [if_pos hoff] at h; cases h
    rw [if_neg hoff] at h
    cases h
    exact .branch hbr hcall hexit (by omega)
  rw [if_neg hbr] at h
  by_cases halu : ins.cls = 0x04#8 ∨ ins.cls = 0x07#8
  · rw [if_pos halu] at h
    by_cases hop : ins.op > 0xd0#8
    · rw [if_pos hop] at h; cases h
    rw [if_neg hop] at h
    cases h
    exact .alu halu (by simpa using hop)
  · rw [if_neg halu] at h; cases h

/-! ### The rules by instruction class -/

section Classes

/-- The jump classes hold the calls, the exit and the branches. -/
theorem Walked.jumps (h : Walked b beyond i ins nxt w w')
    (hc : ins.cls = 0x05#8 ∨ ins.cls = 0x06#8) :
    (ins.opcode = 0x85#8 ∧ ins.src ≠ 1#4 ∧ ampHelperAllowed ins.imm = true ∧
      w'.reg = clobber w.reg) ∨
    ins.opcode = 0x95#8 ∨
    (ins.opcode ≠ 0x85#8 ∧ ins.opcode ≠ 0x95#8 ∧ 0 ≤ ins.off.toInt ∧ w'.reg = w.reg) := by
  cases h with
  | call ho hs ha => exact .inl ⟨ho, hs, ha, rfl⟩
  | exit ho => exact .inr (.inl ho)
  | branch _ hcall hexit ho => exact .inr (.inr ⟨hcall, hexit, ho, rfl⟩)
  | lddw ho => simp [Insn.cls, ho] at hc
  | load hc' => simp [hc'] at hc
  | store hc' => rcases hc' with hc' | hc' <;> simp [hc'] at hc
  | movImm hv => rcases hv with ⟨ho, -⟩ | ⟨ho, -⟩ <;> simp [Insn.cls, ho] at hc
  | movReg ho => rcases ho with ho | ho <;> simp [Insn.cls, ho] at hc
  | addImm ho => rcases ho with ho | ho <;> simp [Insn.cls, ho] at hc
  | alu hc' => rcases hc' with hc' | hc' <;> simp [hc'] at hc

/-- The memory classes: the address has passed, and only `BPF_MEM` has. -/
theorem Walked.memory (h : Walked b beyond i ins nxt w w')
    (hc : ins.cls = 0x01#8 ∨ ins.cls = 0x02#8 ∨ ins.cls = 0x03#8) :
    ins.mode = 0x60#8 ∧
    (ins.cls = 0x01#8 ∧ checkAddr b (lookup beyond w.reg ins.src) ins.off i "load" = .ok () ∧
        w'.reg = forget w.reg ins.dst ∨
      ins.cls ≠ 0x01#8 ∧ checkAddr b (lookup beyond w.reg ins.dst) ins.off i "store" = .ok () ∧
        w'.reg = w.reg) := by
  cases h with
  | load hc' hm ha => exact ⟨hm, .inl ⟨hc', ha, rfl⟩⟩
  | store hc' hm ha =>
      exact ⟨hm, .inr ⟨by rcases hc' with hc' | hc' <;> simp [hc'], ha, rfl⟩⟩
  | lddw ho => simp [Insn.cls, ho] at hc
  | call ho => simp [Insn.cls, ho] at hc
  | exit ho => simp [Insn.cls, ho] at hc
  | branch hc' => rcases hc' with hc' | hc' <;> simp [hc'] at hc
  | movImm hv => rcases hv with ⟨ho, -⟩ | ⟨ho, -⟩ <;> simp [Insn.cls, ho] at hc
  | movReg ho => rcases ho with ho | ho <;> simp [Insn.cls, ho] at hc
  | addImm ho => rcases ho with ho | ho <;> simp [Insn.cls, ho] at hc
  | alu hc' => rcases hc' with hc' | hc' <;> simp [hc'] at hc

/-- The arithmetic classes: a tracked move or addition, or the value is forgotten. -/
theorem Walked.arith (h : Walked b beyond i ins nxt w w') (hc : ins.cls = 0x04#8 ∨ ins.cls = 0x07#8)
    (hd : reg? ins.dst = some d) :
    ∃ v, w'.reg = update w.reg d v ∧
      (v.known = .unknown ∨
       v = ⟨.constant, ins.imm.signExtend 64⟩ ∧ ins.opcode = 0xb7#8 ∨
       v = ⟨.constant, ins.imm.setWidth 64⟩ ∧ ins.opcode = 0xb4#8 ∨
       v = lookup beyond w.reg ins.src ∧ (ins.opcode = 0xbf#8 ∨ ins.opcode = 0xbc#8) ∨
       v = ⟨.constant, (w.reg d).val + ins.imm.signExtend 64⟩ ∧ (w.reg d).known = .constant ∧
        (ins.opcode = 0x07#8 ∨ ins.opcode = 0x04#8)) := by
  cases h with
  | movImm hv =>
      refine ⟨_, assign_eq hd, ?_⟩
      rcases hv with ⟨ho, rfl⟩ | ⟨ho, rfl⟩ <;> simp [ho]
  | movReg ho => exact ⟨_, assign_eq hd, by simp [ho]⟩
  | addImm ho hd' hk =>
      obtain rfl : d = _ := Option.some.inj (hd.symm.trans hd')
      exact ⟨_, rfl, by simp [ho, hk]⟩
  | alu => exact ⟨_, forget_eq hd, .inl rfl⟩
  | lddw ho => simp [Insn.cls, ho] at hc
  | call ho => simp [Insn.cls, ho] at hc
  | exit ho => simp [Insn.cls, ho] at hc
  | load hc' => simp [hc'] at hc
  | store hc' => rcases hc' with hc' | hc' <;> simp [hc'] at hc
  | branch hc' => rcases hc' with hc' | hc' <;> simp [hc'] at hc

/-- The 64-bit load. -/
theorem Walked.wide (h : Walked b beyond i ins nxt w w') (hl : ins.isLddw = true) :
    w'.reg = assign w.reg ins.dst ⟨.constant, (nxt.elim 0#32 (·.imm)) ++ ins.imm⟩ := by
  have ho : ins.opcode = 0x18#8 := by simpa [Insn.isLddw] using hl
  have hc : ins.cls = 0x00#8 := by simp [Insn.cls, ho]
  cases h with
  | lddw => rfl
  | call ho' => simp [ho] at ho'
  | exit ho' => simp [ho] at ho'
  | load hc' => simp [hc] at hc'
  | store hc' => simp [hc] at hc'
  | movImm hv => simp [ho] at hv
  | movReg ho' => simp [ho] at ho'
  | addImm ho' => simp [ho] at ho'
  | branch hc' => simp [hc] at hc'
  | alu hc' => simp [hc] at hc'

end Classes

/-! ### The walk at a slot -/

/-- The walk over `code` stands at slot `i` with state `w`. -/
inductive WalksTo (b : Board) (beyond : BitVec 4 → Regv) (code : List Insn) :
    Nat → Walk → Prop where
  | start : WalksTo b beyond code 0 walkInit
  | next {i : Nat} {w w' : Walk} {ins : Insn} (h : WalksTo b beyond code i w)
      (hi : code[i]? = some ins) (hw : walkInsn b beyond i ins code[i + 1]? w = .ok w') :
      WalksTo b beyond code (i + ins.width) w'

/-- The walk accepts the slots `code`. -/
def Accepts (b : Board) (beyond : BitVec 4 → Regv) (code : List Insn) : Prop :=
  ∃ w, ampCheckLoop b beyond 0 code walkInit = .ok w

theorem accepts_of_ampCheckText {text : List UInt8} {cost : UInt32}
    (h : ampCheckText b beyond text = .ok cost) : Accepts b beyond (slots text) := by
  unfold ampCheckText at h
  split at h
  · cases h
  cases hl : ampCheckLoop b beyond 0 (slots text) walkInit with
  | error e => rw [hl] at h; cases h
  | ok w => exact ⟨w, hl⟩

/-- The loop at an instruction: it accepts the instruction and goes on behind it. -/
theorem ampCheckLoop_cons {rest : List Insn} {wf : Walk}
    (h : ampCheckLoop b beyond i (ins :: rest) w = .ok wf) :
    ∃ w', walkInsn b beyond i ins rest.head? w = .ok w' ∧
      ampCheckLoop b beyond (i + ins.width) (rest.drop (ins.width - 1)) w' = .ok wf := by
  unfold ampCheckLoop at h
  split at h
  · cases h
  rename_i w' hw
  refine ⟨w', hw, ?_⟩
  split at h
  · rename_i hl
    simp only [Insn.width, hl, if_true]
    cases rest with
    | nil => simpa [ampCheckLoop] using h
    | cons nxt rest => exact h
  · rename_i hl
    simpa [Insn.width, hl] using h

/-- Wherever the walk stands, the rest of the loop succeeds. -/
theorem WalksTo.loop {wf : Walk} (h : WalksTo b beyond code i w)
    (hacc : ampCheckLoop b beyond 0 code walkInit = .ok wf) :
    ampCheckLoop b beyond i (code.drop i) w = .ok wf := by
  induction h with
  | start => exact hacc
  | @next i w w' ins _ hi hw ih =>
      have hd : code.drop i = ins :: code.drop (i + 1) := by
        obtain ⟨hlt, rfl⟩ := List.getElem?_eq_some_iff.mp hi
        exact List.drop_eq_getElem_cons hlt
      rw [hd] at ih
      obtain ⟨w₁, hw₁, hrest⟩ := ampCheckLoop_cons ih
      rw [List.head?_drop, hw] at hw₁
      cases hw₁
      have hp := ins.width_pos
      rwa [List.drop_drop, show i + 1 + (ins.width - 1) = i + ins.width by omega] at hrest

/-- The walk accepts the instruction it stands at. -/
theorem Accepts.walkInsn_eq (hacc : Accepts b beyond code) (h : WalksTo b beyond code i w)
    (hi : code[i]? = some ins) :
    ∃ w', walkInsn b beyond i ins code[i + 1]? w = .ok w' := by
  obtain ⟨wf, hacc⟩ := hacc
  have hl := h.loop hacc
  obtain ⟨hlt, rfl⟩ := List.getElem?_eq_some_iff.mp hi
  rw [List.drop_eq_getElem_cons hlt] at hl
  obtain ⟨w', hw, -⟩ := ampCheckLoop_cons hl
  rw [List.head?_drop] at hw
  exact ⟨w', hw⟩

/-- **The walk reaches every boundary.** -/
theorem Accepts.walksTo (hacc : Accepts b beyond code) (h : Boundary code i) :
    ∃ w, WalksTo b beyond code i w := by
  induction h with
  | start => exact ⟨_, .start⟩
  | next _ hi ih =>
      obtain ⟨w, hw⟩ := ih
      obtain ⟨w', hw'⟩ := hacc.walkInsn_eq hw hi
      exact ⟨w', .next hw hi hw'⟩

/-- **The walk accepts the instruction at every boundary.** -/
theorem Accepts.walked (hacc : Accepts b beyond code) (h : Boundary code i)
    (hi : code[i]? = some ins) :
    ∃ w w', WalksTo b beyond code i w ∧ Walked b beyond i ins code[i + 1]? w w' := by
  obtain ⟨w, hw⟩ := hacc.walksTo h
  obtain ⟨w', hw'⟩ := hacc.walkInsn_eq hw hi
  exact ⟨w, w', hw, walkInsn_ok hw'⟩

/-! ### What the walk assigns -/

/-- The walk may change what it knows of `r` at `ins`. -/
def assigns (ins : Insn) (r : Reg) : Bool :=
  if ins.opcode = 0x85#8 then decide (r ≤ 5)
  else if ins.cls = 0x00#8 ∨ ins.cls = 0x01#8 ∨ ins.cls = 0x04#8 ∨ ins.cls = 0x07#8 then
    reg? ins.dst == some r
  else false

/-- An instruction of the linear decode in `[i, t)` assigns `r`. -/
def Assigned (code : List Insn) (i t : Nat) (r : Reg) : Prop :=
  ∃ j ins, Boundary code j ∧ i ≤ j ∧ j < t ∧ code[j]? = some ins ∧ assigns ins r = true

theorem Assigned.mono {i' t : Nat} (h : Assigned code i' t r) (hi : i ≤ i') :
    Assigned code i t r := by
  obtain ⟨j, ins, hb, hj, ht, hget, ha⟩ := h
  exact ⟨j, ins, hb, Nat.le_trans hi hj, ht, hget, ha⟩

theorem assign_of_ne {v : Regv} (h : reg? dst ≠ some r) : assign reg dst v r = reg r := by
  unfold assign
  cases hd : reg? dst with
  | none => rfl
  | some d => exact update_of_ne (by rintro rfl; exact h hd) _ _

theorem forget_of_ne (h : reg? dst ≠ some r) : forget reg dst r = reg r := by
  unfold forget
  cases hd : reg? dst with
  | none => rfl
  | some d => exact update_of_ne (by rintro rfl; exact h hd) _ _

/-- Nothing else changes. -/
theorem Walked.reg_eq (h : Walked b beyond i ins nxt w w') (hr : assigns ins r = false) :
    w'.reg r = w.reg r := by
  have dst_ne (hc : ins.cls = 0x00#8 ∨ ins.cls = 0x01#8 ∨ ins.cls = 0x04#8 ∨ ins.cls = 0x07#8) :
      reg? ins.dst ≠ some r := by
    have ho : ins.opcode ≠ 0x85#8 := by
      intro ho; simp [Insn.cls, ho] at hc
    simpa [assigns, ho, hc] using hr
  cases h with
  | lddw ho => exact assign_of_ne (dst_ne (by simp [Insn.cls, ho]))
  | call ho =>
      have : ¬ r ≤ 5 := by simpa [assigns, ho] using hr
      simp [clobber, this]
  | exit => rfl
  | load hc => exact forget_of_ne (dst_ne (by simp [hc]))
  | store => rfl
  | movImm hv =>
      exact assign_of_ne (dst_ne (by rcases hv with ⟨ho, -⟩ | ⟨ho, -⟩ <;> simp [Insn.cls, ho]))
  | movReg ho => exact assign_of_ne (dst_ne (by rcases ho with ho | ho <;> simp [Insn.cls, ho]))
  | addImm ho hd =>
      have hne := dst_ne (by rcases ho with ho | ho <;> simp [Insn.cls, ho])
      exact update_of_ne (by rintro rfl; exact hne hd) _ _
  | branch => rfl
  | alu hc => exact forget_of_ne (dst_ne (by rcases hc with hc | hc <;> simp [hc]))

/-- **Between two slots the walk changes only what the instructions between them assign.** -/
theorem WalksTo.between {t : Nat} (h : WalksTo b beyond code i w) (hacc : Accepts b beyond code)
    (hb : Boundary code i) (hit : i ≤ t) (ht : t ≤ code.length) :
    SecondSlot code t ∨ ∃ w', WalksTo b beyond code t w' ∧
      ∀ r, ¬ Assigned code i t r → w'.reg r = w.reg r := by
  -- the walk moves towards `t` one instruction at a time
  induction hn : t - i using Nat.strongRecOn generalizing i w with
  | _ n ih =>
  rcases Nat.eq_or_lt_of_le hit with rfl | hlt
  · exact .inr ⟨w, h, fun _ _ => rfl⟩
  have hi : code[i]? = some code[i] := List.getElem?_eq_getElem (by omega)
  obtain ⟨w₁, hw₁⟩ := hacc.walkInsn_eq h hi
  have hp := code[i].width_pos
  by_cases hle : i + code[i].width ≤ t
  · rcases ih _ (by omega) (.next h hi hw₁) (.next hb hi) hle rfl with hs | ⟨w', hw', hreg⟩
    · exact .inl hs
    · refine .inr ⟨w', hw', fun r hr => ?_⟩
      rw [hreg r fun ha => hr (ha.mono (by omega))]
      refine (walkInsn_ok hw₁).reg_eq (Bool.eq_false_iff.mpr fun ha => hr ?_)
      exact ⟨i, _, hb, Nat.le_refl _, hlt, hi, ha⟩
  · -- the instruction reaches past `t`, so it is the two-slot one and `t` is its second slot
    rcases code[i].width_cases with ⟨-, hw⟩ | ⟨hl, hw⟩
    · omega
    · exact .inl ⟨i, _, hb, hi, hl, by omega⟩

end SpinelEbpf.Amp

import SpinelEbpf.Amp.Flow

/-!
# Amp — the static cost bound

The walk adds up a weight for each instruction of the linear decode (`ampCheckLoop_cost`).  A path
of the program that moves forward along these instructions meets each at most once, so its weights
add up to no more (`path_cost_le`).  The sum in C is an `unsigned`; the largest weight is 60, so
below `2 ^ 26` instructions it does not wrap.
-/

namespace SpinelEbpf.Amp
open Bpf

variable {b : Board} {beyond : BitVec 4 → Regv} {code : List Insn} {text : List UInt8}
  {cost : UInt32}

/-! ### Weights -/

/-- The weight of an instruction, by its kind. -/
def weight (ins : Insn) : Nat :=
  if ins.opcode = 0x18#8 then 2
  else if ins.opcode = 0x85#8 then if ins.imm = 1#32 then 60 else if ins.imm = 2#32 then 12 else 0
  else if ins.opcode = 0x95#8 then 0
  else if ins.cls = 0x00#8 ∨ ins.cls = 0x01#8 ∨ ins.cls = 0x02#8 ∨ ins.cls = 0x03#8 then 4
  else if ins.cls = 0x05#8 ∨ ins.cls = 0x06#8 then 2
  else 1

/-- The weight of the instruction at slot `i`; there is none past the text. -/
def weightAt (code : List Insn) (i : Nat) : Nat := (code[i]?).elim 0 weight

theorem weight_le (ins : Insn) : weight ins ≤ 60 := by
  unfold weight
  repeat' split
  all_goals omega

/-- The walk charges an instruction its weight. -/
theorem Walked.cost_eq {i : Nat} {ins : Insn} {nxt : Option Insn} {w w' : Walk}
    (h : Walked b beyond i ins nxt w w') : w'.cost = w.cost + UInt32.ofNat (weight ins) := by
  have plain (hc : ins.cls ≠ 0x00#8) (hc' : ins.cls ≠ 0x05#8) :
      ins.opcode ≠ 0x18#8 ∧ ins.opcode ≠ 0x85#8 ∧ ins.opcode ≠ 0x95#8 := by
    refine ⟨?_, ?_, ?_⟩ <;> intro ho <;> simp [Insn.cls, ho] at hc hc'
  have arith (hc : ins.cls = 0x04#8 ∨ ins.cls = 0x07#8) : weight ins = 1 := by
    obtain ⟨h₁, h₂, h₃⟩ := plain (by rcases hc with hc | hc <;> simp [hc])
      (by rcases hc with hc | hc <;> simp [hc])
    rcases hc with hc | hc <;> simp [weight, h₁, h₂, h₃, hc]
  have memory (hc : ins.cls = 0x01#8 ∨ ins.cls = 0x02#8 ∨ ins.cls = 0x03#8) : weight ins = 4 := by
    obtain ⟨h₁, h₂, h₃⟩ := plain (by rcases hc with hc | hc | hc <;> simp [hc])
      (by rcases hc with hc | hc | hc <;> simp [hc])
    simp [weight, h₁, h₂, h₃, hc]
  cases h with
  | lddw ho =>
      rw [weight, if_pos ho]
      rfl
  | call ho _ ha =>
      have himm : ins.imm = 1#32 ∨ ins.imm = 2#32 := by simpa [ampHelperAllowed] using ha
      rcases himm with himm | himm <;> simp [weight, ho, himm, ampHelperCost]
  | exit ho => simp [weight, ho]
  | load hc => rw [memory (.inl hc)]; rfl
  | store hc => rw [memory (.inr hc)]; rfl
  | movImm hv =>
      rw [arith (by rcases hv with ⟨ho, -⟩ | ⟨ho, -⟩ <;> simp [Insn.cls, ho])]
      rfl
  | movReg ho =>
      rw [arith (by rcases ho with ho | ho <;> simp [Insn.cls, ho])]
      rfl
  | addImm ho =>
      rw [arith (by rcases ho with ho | ho <;> simp [Insn.cls, ho])]
      rfl
  | branch hc hcall hexit =>
      have hne : ins.opcode ≠ 0x18#8 := by
        intro ho
        simp [Insn.cls, ho] at hc
      have hw : weight ins = 2 := by
        rcases hc with hc | hc <;> simp [weight, hne, hcall, hexit, hc]
      rw [hw]
      rfl
  | alu hc => rw [arith hc]; rfl

/-! ### The linear decode -/

/-- The instructions of the linear decode from slot `i` on, with their slots. -/
def linear : Nat → List Insn → List (Nat × Insn)
  | _, [] => []
  | i, ins :: rest =>
      if ins.isLddw then
        match rest with
        | [] => [(i, ins)]
        | _ :: rest' => (i, ins) :: linear (i + 2) rest'
      else (i, ins) :: linear (i + 1) rest

theorem linear_cons (i : Nat) (ins : Insn) (rest : List Insn) :
    linear i (ins :: rest) = (i, ins) :: linear (i + ins.width) (rest.drop (ins.width - 1)) := by
  rcases ins.width_cases with ⟨hl, hw⟩ | ⟨hl, hw⟩
  · rw [linear.eq_def, hw]
    dsimp only
    rw [if_neg (by rw [hl]; decide)]
    rfl
  · rw [linear.eq_def, hw]
    dsimp only
    rw [if_pos hl]
    cases rest with
    | nil => rfl
    | cons nxt rest => rfl

/-- The total of the weights. -/
def totalWeight (is : List (Nat × Insn)) : Nat := (is.map fun x => weight x.2).sum

theorem totalWeight_le (is : List (Nat × Insn)) : totalWeight is ≤ 60 * is.length := by
  induction is with
  | nil => exact Nat.le_refl 0
  | cons x is ih =>
      have hle := weight_le x.2
      rw [totalWeight] at ih ⊢
      rw [List.map_cons, List.sum_cons, List.length_cons]
      omega

/-- **The walk charges every instruction of the linear decode once.** -/
theorem ampCheckLoop_cost {i : Nat} {w w' : Walk} (h : ampCheckLoop b beyond i code w = .ok w') :
    w'.cost = w.cost + UInt32.ofNat (totalWeight (linear i code)) := by
  induction hn : code.length using Nat.strongRecOn generalizing i code w with
  | _ n ih =>
  cases code with
  | nil =>
      obtain rfl : w = w' := Except.ok.inj h
      simp [linear, totalWeight]
  | cons ins rest =>
      obtain ⟨w₁, hw₁, hrest⟩ := ampCheckLoop_cons h
      have hlen : (rest.drop (ins.width - 1)).length < n := by
        rw [← hn, List.length_drop, List.length_cons]
        omega
      rw [ih _ hlen hrest rfl, (walkInsn_ok hw₁).cost_eq, linear_cons, totalWeight, totalWeight,
        List.map_cons, List.sum_cons, UInt32.ofNat_add, UInt32.add_assoc]

/-- The linear decode has the instruction at each boundary. -/
theorem mem_linear {i : Nat} {ins : Insn} (hb : Boundary code i) (hi : code[i]? = some ins) :
    (i, ins) ∈ linear 0 code := by
  have hsub : ∀ {j : Nat}, Boundary code j → linear j (code.drop j) ⊆ linear 0 code := by
    intro j hj
    induction hj with
    | start => exact List.Subset.refl _
    | @next j ins' _ hj' ih =>
        obtain ⟨hlt, rfl⟩ := List.getElem?_eq_some_iff.mp hj'
        rw [List.drop_eq_getElem_cons hlt, linear_cons, List.drop_drop] at ih
        have hp := code[j].width_pos
        rw [show j + 1 + (code[j].width - 1) = j + code[j].width by omega] at ih
        exact List.Subset.trans (List.subset_cons_self _ _) ih
  obtain ⟨hlt, rfl⟩ := List.getElem?_eq_some_iff.mp hi
  apply hsub hb
  rw [List.drop_eq_getElem_cons hlt, linear_cons]
  exact List.mem_cons_self

/-! ### Paths -/

/-- The slot `j` comes after the slot `i`: behind its instruction, or where its branch goes. -/
inductive Follows (code : List Insn) (i : Nat) : Nat → Prop where
  | next {ins : Insn} (hi : code[i]? = some ins) : Follows code i (i + ins.width)
  | jump {ins : Insn} (hi : code[i]? = some ins) (hc : ins.cls = 0x05#8 ∨ ins.cls = 0x06#8)
      (hoff : 0 ≤ ins.off.toInt) : Follows code i (i + 1 + ins.off.toInt.toNat)

/-- A path from the first slot, by the slots it visits, that keeps to the linear decode. -/
structure Path (code : List Insn) (path : List Nat) : Prop where
  start : ∀ i ∈ path.head?, i = 0
  steps : path.IsChain (Follows code)
  aligned : ∀ i ∈ path, ¬ SecondSlot code i

theorem Follows.lt {i j : Nat} (h : Follows code i j) : i < j := by
  cases h with
  | next hi =>
      rename_i ins
      have hp := ins.width_pos
      omega
  | jump => omega

/-- A path visits no slot twice. -/
theorem Path.nodup {path : List Nat} (h : Path code path) : path.Nodup := by
  have hlt : path.Pairwise (· < ·) :=
    List.isChain_iff_pairwise.mp (h.steps.imp fun _ _ hf => hf.lt)
  exact hlt.imp fun hne => hne.ne

/-- The instructions that a path executes, with their slots. -/
def executed (code : List Insn) (path : List Nat) : List (Nat × Insn) :=
  path.filterMap fun i => (code[i]?).map fun ins => (i, ins)

theorem totalWeight_executed (path : List Nat) :
    totalWeight (executed code path) = (path.map (weightAt code)).sum := by
  induction path with
  | nil => rfl
  | cons i path ih =>
      rw [executed, totalWeight] at ih ⊢
      rw [List.map_cons, List.sum_cons, ← ih]
      cases hi : code[i]? with
      | none => simp [hi, weightAt]
      | some ins => simp [hi, weightAt]

theorem executed_nodup {path : List Nat} (h : path.Nodup) : (executed code path).Nodup := by
  refine h.filterMap fun i j x hi hj => ?_
  obtain ⟨_, -, rfl⟩ := Option.map_eq_some_iff.mp hi
  obtain ⟨_, -, heq⟩ := Option.map_eq_some_iff.mp hj
  exact (congrArg Prod.fst heq).symm

theorem Path.executed_subset {path : List Nat} (h : Path code path) :
    executed code path ⊆ linear 0 code := by
  intro x hx
  obtain ⟨i, hi, hx⟩ := List.mem_filterMap.mp hx
  obtain ⟨ins, hins, rfl⟩ := Option.map_eq_some_iff.mp hx
  have hlt := (List.getElem?_eq_some_iff.mp hins).1
  exact mem_linear ((boundary_or_secondSlot (Nat.le_of_lt hlt)).resolve_right (h.aligned i hi)) hins

theorem totalWeight_le_of_subperm {xs ys : List (Nat × Insn)} (h : xs.Subperm ys) :
    totalWeight xs ≤ totalWeight ys := by
  obtain ⟨zs, hperm, hsub⟩ := h
  calc totalWeight xs
    _ = totalWeight zs := (hperm.map _).sum_eq.symm
    _ ≤ totalWeight ys := (hsub.map _).sum_le_sum fun _ _ => Nat.zero_le _

/-- **The reported cost bounds every path**: of an accepted text with fewer than `2 ^ 26`
instructions, the weights along a path add up to no more than the cost. -/
theorem path_cost_le {path : List Nat} (hacc : ampCheckText b beyond text = .ok cost)
    (hlen : (linear 0 (slots text)).length < 2 ^ 26) (hpath : Path (slots text) path) :
    (path.map (weightAt (slots text))).sum ≤ cost.toNat := by
  have hcost : cost.toNat = totalWeight (linear 0 (slots text)) := by
    unfold ampCheckText at hacc
    split at hacc
    · cases hacc
    cases hl : ampCheckLoop b beyond 0 (slots text) walkInit with
    | error e => rw [hl] at hacc; cases hacc
    | ok w =>
        rw [hl] at hacc
        obtain rfl : w.cost = cost := Except.ok.inj hacc
        have hle := totalWeight_le (linear 0 (slots text))
        rw [ampCheckLoop_cost hl, walkInit, UInt32.zero_add, UInt32.toNat_ofNat']
        exact Nat.mod_eq_of_lt (by omega)
  rw [hcost, ← totalWeight_executed]
  exact totalWeight_le_of_subperm ((executed_nodup hpath.nodup).subperm hpath.executed_subset)

/-- A run of the machine without the long jump is such a path. -/
theorem AlignedRun.path {states : List State} (hrun : AlignedRun code states)
    (hacc : Accepts b beyond code)
    (hshort : ∀ s ∈ states, ∀ ins, code[s.pc]? = some ins → ins.opcode ≠ 0x06#8) :
    Path code (states.map State.pc) where
  start := by
    intro i hi
    rw [List.head?_map] at hi
    obtain ⟨s, hs, rfl⟩ := Option.map_eq_some_iff.mp hi
    exact hrun.start s hs
  steps := by
    rw [List.isChain_map]
    refine hrun.steps.imp_of_mem_imp fun s s' hs _ hstep => ?_
    obtain ⟨ins, hi, ⟨-, hpc⟩ | ⟨x, y, ht, hpc⟩⟩ := hstep.next_or_jump
    · rw [hpc]
      exact .next hi
    · have hoff := hacc.off_nonneg (hrun.boundary hs hi) hi ht
      have hdisp : ins.disp true = ins.off.toInt := by
        simp [Insn.disp, hshort s hs ins hi]
      have hpc' : s'.pc = s.pc + 1 + ins.off.toInt.toNat := by omega
      rw [hpc']
      exact .jump hi (Insn.cls_of_taken ht) hoff
  aligned := by
    intro i hi
    obtain ⟨s, hs, rfl⟩ := List.mem_map.mp hi
    exact hrun.aligned s hs

theorem path_cost_moveExit :
    (linear 0 (slots moveExit)).length < 2 ^ 26 ∧
      ([0, 1].map (weightAt (slots moveExit))).sum ≤ (1 : UInt32).toNat :=
  ⟨by decide, path_cost_le
    (rfl : ampCheckText .imx95m7 (fun _ => ⟨.unknown, 0#64⟩) moveExit = .ok 1) (by decide)
    ⟨by simp, .cons_cons (@Follows.next _ 0 (Insn.ofBytes 0xb7 0 0 0 7 0 0 0) rfl) (.singleton _),
      fun _ _ => not_secondSlot (by decide)⟩⟩

end SpinelEbpf.Amp

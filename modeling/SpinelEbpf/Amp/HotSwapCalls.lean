import SpinelEbpf.Amp.HotSwap

/-!
# Amp — hot swap, whole calls

A call of `amp_cmd_ring_push` is a run of the application core alone (`push_call`), and a call of
`amp_m7_poll_cmd` a run of the real-time core alone (`poll_call`): the machine of `Amp.HotSwap`
reaches what the functions of `Amp.Runtime` compute.
-/

namespace SpinelEbpf.Amp.HotSwap

variable {b : Board} {σ : System} {cons : BitVec 32}

/-- Any number of steps of the application core. -/
abbrev PushSteps : System → System → Prop := Relation.ReflTransGen fun σ σ' => ∃ w, PushStep σ w σ'

/-- Any number of steps of the real-time core. -/
abbrev PollSteps (b : Board) : System → System → Prop :=
  Relation.ReflTransGen fun σ σ' => ∃ w, PollStep b σ w σ'

/-- **A call of `amp_cmd_ring_push`.** -/
theorem push_call (rec : AmpCmdRec) (h : σ.pusher = .idle) :
    PushSteps σ { σ with
      m := { σ.m with cmd := (ampCmdRingPush σ.m.cmd rec).2 }
      pusher := .idle
      pushed := if (ampCmdRingPush σ.m.cmd rec).1 = 1 then σ.pushed ++ [rec] else σ.pushed } := by
  by_cases hm : σ.m.cmd.magic ≠ ampCmdRingMagic
  · have hret : ampCmdRingPush σ.m.cmd rec = (0, σ.m.cmd) := if_pos hm
    rw [hret, if_neg Int.zero_ne_one, ← h]
  have hload : PushSteps σ { σ with pusher := .loaded rec σ.m.cmd.prod } :=
    .single ⟨_, .load rec h (not_not.mp hm)⟩
  by_cases hfull : σ.m.cmd.capacity ≤ σ.m.cmd.prod - σ.m.cmd.cons
  · have hret : ampCmdRingPush σ.m.cmd rec = (0, σ.m.cmd) := by
      rw [ampCmdRingPush, if_neg hm, if_pos hfull]
    rw [hret, if_neg Int.zero_ne_one]
    exact hload.tail ⟨_, .full rfl hfull⟩
  · have hret : ampCmdRingPush σ.m.cmd rec = (1, { σ.m.cmd with
        recs := Function.update σ.m.cmd.recs (σ.m.cmd.slotOf σ.m.cmd.prod) rec
        prod := σ.m.cmd.prod + 1#32 }) := by
      rw [ampCmdRingPush, if_neg hm, if_neg hfull]
    rw [hret, if_pos rfl]
    have hroom := hload.tail ⟨_, .room rfl hfull⟩
    have hstore := hroom.tail ⟨_, .store rfl⟩
    exact hstore.tail ⟨_, .publish rfl⟩

/-! ### The memory loops -/

/-- The first byte of a block, then the rest. -/
theorem blit_succ (mem : Nat → UInt8) (base n : Nat) (src : Nat → UInt8) :
    blit mem base (n + 1) src
      = blit (Function.update mem base (src 0)) (base + 1) n fun j => src (j + 1) := by
  funext a
  unfold blit
  by_cases ha : a = base
  · rw [if_pos (by omega), if_neg (by omega), ha, Function.update_self, Nat.sub_self]
  · rw [Function.update_of_ne ha]
    by_cases hin : base ≤ a ∧ a < base + (n + 1)
    · rw [if_pos hin, if_pos (by omega)]
      exact congrArg src (by omega)
    · rw [if_neg hin, if_neg (by omega)]

theorem blit_zero (mem : Nat → UInt8) (base : Nat) (src : Nat → UInt8) :
    blit mem base 0 src = mem := by
  funext a
  exact if_neg (by omega)

/-- The `memset` of an install. -/
theorem zeroing_run {target : Fin 2} {len zsize : Nat} :
    ∀ (n i : Nat) {σ : System}, zsize = i + n → σ.core = .zeroing cons target len zsize i →
      PollSteps b σ { σ with
        m := { σ.m with mem := blit σ.m.mem (b.ivarsBase + i) n fun _ => 0 }
        core := .noting 55 (.copying cons target len 0) } := by
  intro n
  induction n with
  | zero =>
      intro i σ hz h
      rw [blit_zero]
      exact .single ⟨_, .zeroed h (by omega)⟩
  | succ n ih =>
      intro i σ hz h
      rw [blit_succ]
      exact .head ⟨_, .zero h (by omega)⟩ (ih (i + 1) (by omega) rfl)

/-- The `memcpy` of an install. -/
theorem copying_run {target : Fin 2} {len : Nat} :
    ∀ (n i : Nat) {σ : System}, len = i + n → σ.core = .copying cons target len i →
      PollSteps b σ { σ with
        m := { σ.m with
          mem := blit σ.m.mem (b.blobSlot target + i) n fun j => (σ.cmdAt cons).blob (i + j) }
        core := .noting 60 (.noting 70 (.flipping cons target)) } := by
  intro n
  induction n with
  | zero =>
      intro i σ hlen h
      rw [blit_zero]
      exact .single ⟨_, .copied h (by omega)⟩
  | succ n ih =>
      intro i σ hlen h
      rw [blit_succ]
      have hsrc : (fun j => (σ.cmdAt cons).blob (i + (j + 1)))
          = fun j => (σ.cmdAt cons).blob (i + 1 + j) := by
        funext j
        rw [Nat.add_comm j 1, Nat.add_assoc]
      have hbase : b.blobSlot target + i + 1 = b.blobSlot target + (i + 1) := Nat.add_assoc ..
      rw [hsrc, hbase]
      refine .head ⟨_, .copy h (by omega)⟩ ?_
      exact ih (i + 1) (by omega) rfl

/-- The `memset` of a teardown. -/
theorem wiping_run :
    ∀ (n i : Nat) {σ : System}, b.ivarsSize = i + n → σ.core = .wiping cons i →
      PollSteps b σ { σ with
        m := { σ.m with mem := blit σ.m.mem (b.ivarsBase + i) n fun _ => 0 }
        core := .advancing cons } := by
  intro n
  induction n with
  | zero =>
      intro i σ hz h
      rw [blit_zero]
      exact .single ⟨_, .wiped h (by omega)⟩
  | succ n ih =>
      intro i σ hz h
      rw [blit_succ]
      exact .head ⟨_, .wipe h (by omega)⟩ (ih (i + 1) (by omega) rfl)

/-! ### The command loop -/

/-- A progress write. -/
theorem note_run {step : Nat} {next : Core} (h : σ.core = .noting step next) :
    PollSteps b σ { σ with m := ampM7Progress step σ.m, core := next } :=
  .single ⟨_, .note h⟩

/-- A command leaves the command ring alone. -/
@[simp] theorem runCmd_cmd (rec : AmpCmdRec) (m : Runtime) : (runCmd b rec m).cmd = m.cmd := by
  unfold runCmd
  by_cases ht : rec.type = ampCmdInstall
  · rw [if_pos ht]
    by_cases ha : accepts b rec = true
    · rw [if_pos ha]; rfl
    · rw [if_neg ha]; rfl
  · rw [if_neg ht]
    by_cases hd : rec.type = ampCmdTeardown
    · rw [if_pos hd]; rfl
    · rw [if_neg hd]; rfl

/-- **One command.**  From the loop's test, with a command waiting, back to it. -/
theorem cmd_run (h : σ.core = .looping cons) (hne : cons ≠ σ.m.cmd.prod) :
    PollSteps b σ { σ with
      m := runCmd b (σ.cmdAt cons) σ.m
      core := .looping (cons + 1#32)
      executed := σ.executed ++ [σ.cmdAt cons] } := by
  have hfound : PollSteps b σ { σ with core := .noting 30 (.dispatching cons) } :=
    .single ⟨_, .found h hne⟩
  have hat := hfound.trans (note_run rfl)
  by_cases ht : (σ.cmdAt cons).type = ampCmdInstall
  · by_cases ha : accepts b (σ.cmdAt cons) = true
    · have hrun : runCmd b (σ.cmdAt cons) σ.m = ampM7Progress 80
          { installToSlot b (inactive σ.m.active) (σ.cmdAt cons).blob (σ.cmdAt cons).length
              (σ.cmdAt cons).ivarsSize (ampM7Progress 40 (ampM7Progress 30 σ.m)) with
            active := some (inactive σ.m.active) } := by
        rw [runCmd, if_pos ht, if_pos ha]
        rfl
      rw [hrun]
      have h40 := hat.tail ⟨_, .install rfl ht ha⟩
      have h50 := ((h40.trans (note_run rfl)).trans (note_run rfl)).trans (note_run rfl)
      have hzero := h50.trans (zeroing_run _ 0 (Nat.zero_add _).symm rfl)
      have hcopy := (hzero.trans (note_run rfl)).trans
        (copying_run _ 0 (Nat.zero_add _).symm rfl)
      have hflip := ((hcopy.trans (note_run rfl)).trans (note_run rfl)).tail ⟨_, .flip rfl⟩
      have hdone := (hflip.trans (note_run rfl)).tail ⟨_, .advance rfl⟩
      simp only [Nat.zero_add, Nat.add_zero] at hdone
      exact hdone
    · have hrun : runCmd b (σ.cmdAt cons) σ.m = ampM7Progress 30 σ.m := by
        rw [runCmd, if_pos ht, if_neg ha]
      rw [hrun]
      have hskip := hat.tail ⟨_, .skip rfl (fun _ => Bool.not_eq_true _ ▸ ha)
        (fun hd => absurd (ht.symm.trans hd) (by decide))⟩
      exact hskip.tail ⟨_, .advance rfl⟩
  · by_cases hd : (σ.cmdAt cons).type = ampCmdTeardown
    · have hrun : runCmd b (σ.cmdAt cons) σ.m = ampM7Teardown b (ampM7Progress 30 σ.m) := by
        rw [runCmd, if_neg ht, if_pos hd]
      rw [hrun]
      have hoff := (hat.tail ⟨_, .teardown rfl hd⟩).tail ⟨_, .deactivate rfl⟩
      have hwipe := hoff.trans (wiping_run _ 0 (Nat.zero_add _).symm rfl)
      exact hwipe.tail ⟨_, .advance rfl⟩
    · have hrun : runCmd b (σ.cmdAt cons) σ.m = ampM7Progress 30 σ.m := by
        rw [runCmd, if_neg ht, if_neg hd]
      rw [hrun]
      have hskip := hat.tail ⟨_, .skip rfl (fun hi => absurd hi ht) hd⟩
      exact hskip.tail ⟨_, .advance rfl⟩

/-- The loop takes the commands up to the producer index, in order. -/
theorem pollLoop_run :
    ∀ (n : Nat) (cons : BitVec 32) {σ : System}, (σ.m.cmd.prod - cons).toNat = n →
      σ.core = .looping cons →
      PollSteps b σ { σ with
        m := pollLoop b n cons σ.m
        core := .looping σ.m.cmd.prod
        executed := σ.executed ++
          (List.range n).map fun i => σ.cmdAt (cons + BitVec.ofNat 32 i) } := by
  intro n
  induction n with
  | zero =>
      intro cons σ hn h
      have heq : σ.m.cmd.prod = cons := by bv_omega
      simp only [List.range_zero, List.map_nil, List.append_nil, pollLoop, heq, ← h]
      exact .refl
  | succ n ih =>
      intro cons σ hn h
      have hne : cons ≠ σ.m.cmd.prod := by
        rintro rfl
        simp at hn
      have hrest := @ih (cons + 1#32)
        { σ with
          m := runCmd b (σ.cmdAt cons) σ.m
          core := .looping (cons + 1#32)
          executed := σ.executed ++ [σ.cmdAt cons] }
        (by simp only [runCmd_cmd]; bv_omega) rfl
      have hidx (i : Nat) : cons + 1#32 + BitVec.ofNat 32 i = cons + BitVec.ofNat 32 (i + 1) := by
        rw [Nat.add_comm i 1, BitVec.ofNat_add, BitVec.add_assoc]
      simp only [System.cmdAt, runCmd_cmd, List.append_assoc, hidx] at hrest
      rw [List.range_succ_eq_map, List.map_cons, List.map_map, BitVec.add_zero]
      exact (cmd_run h hne).trans hrest

@[simp] theorem pollLoop_cmd :
    ∀ (n : Nat) (cons : BitVec 32) (m : Runtime), (pollLoop b n cons m).cmd = m.cmd
  | 0, _, _ => rfl
  | n + 1, cons, m => by rw [pollLoop, pollLoop_cmd n, runCmd_cmd]

/-- A poll that finds the magic in place, from its start to its commit. -/
theorem poll_run (h : σ.core = .idle) (hm : σ.m.cmd.magic = ampCmdRingMagic) :
    PollSteps b σ { σ with
      m := { pollLoop b (σ.m.cmd.prod - σ.m.cmd.cons).toNat σ.m.cmd.cons
          (ampM7Progress 25 (ampM7Progress 20 σ.m)) with
        cmd := { σ.m.cmd with cons := σ.m.cmd.prod } }
      core := .idle
      executed := σ.executed ++ pending σ.m.cmd
      taken := (σ.executed ++ pending σ.m.cmd).length } := by
  have hin : PollSteps b σ { σ with core := .noting 20 .entering } := .single ⟨_, .poll h⟩
  have henter := (hin.trans (note_run rfl)).tail ⟨_, .enter rfl hm⟩
  have hload := (henter.trans (note_run rfl)).tail ⟨_, .load rfl⟩
  have hloop := hload.trans (pollLoop_run _ _ rfl rfl)
  have hdrained := hloop.tail ⟨_, .drained rfl (by rw [pollLoop_cmd])⟩
  have hcommit := hdrained.tail ⟨_, .commit rfl⟩
  simp only [pollLoop_cmd] at hcommit
  exact hcommit

/-- **A call of `amp_m7_poll_cmd`.**  With the magic in place it executes the commands waiting in
the ring, and none is waiting after it. -/
theorem poll_call (h : σ.core = .idle) (hm : σ.m.cmd.magic = ampCmdRingMagic) :
    PollSteps b σ { σ with
      m := (ampM7PollCmd b σ.m).2
      core := .idle
      executed := σ.executed ++ pending σ.m.cmd
      taken := (σ.executed ++ pending σ.m.cmd).length } := by
  have hm' : (ampM7Progress 20 σ.m).cmd.magic = ampCmdRingMagic := hm
  have hrun : PollSteps b σ _ := poll_run h hm
  rw [ampM7PollCmd, if_neg (not_not.mpr hm')]
  simp only [pollLoop_cmd]
  exact hrun

/-- A blob of one byte. -/
def oneByte : AmpCmdRec := ⟨ampCmdInstall, Board.imx95m7.abiVersion, 1, 8, fun _ => 0x95⟩

/-- The first call of the application core pushes it. -/
def pushedOne : System :=
  let σ := System.start .imx95m7 0 0 unstaged blank
  { σ with m := { σ.m with cmd := (ampCmdRingPush σ.m.cmd oneByte).2 }, pushed := [oneByte] }

theorem poll_call_install :
    pending pushedOne.m.cmd = [oneByte] ∧
      ∃ σ, PollSteps .imx95m7 pushedOne σ ∧ σ.core = .idle ∧ σ.executed = [oneByte] ∧
        σ.m.active = some 0 ∧ σ.m.mem (Board.imx95m7.blobSlot 0) = 0x95 := by
  have hcall := @poll_call .imx95m7 pushedOne rfl rfl
  exact ⟨rfl, _, hcall, rfl, rfl, rfl, by decide +kernel⟩

end SpinelEbpf.Amp.HotSwap

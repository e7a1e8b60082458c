import SpinelEbpf.Amp.Check
import SpinelEbpf.Amp.HotSwap

/-!
# Amp — what an install leaves of the probe before

Two runs of the command loop that see the same commands, and in which the probes leave different
bytes in the ivar carveout, agree off the carveout at every moment (`AgreeOff.run`).  An accepted
INSTALL clears the first `ivars_size` bytes of the carveout, all of it if the size is zero or too
large, while the checker lets a probe address all of it (`addressable_iff`).  So the runs are the
same after the install, and the carveout is zero, exactly if `ivars_size` is zero or at least
`AMP_IVARS_SIZE` (`install_forgets_iff`); a smaller one shows the new probe what the old one left
(`small_ivars_leak`).
-/

namespace SpinelEbpf.Amp.Leak

variable {b : Board} {m m₁ m₂ : Runtime}

/-! ### What the checker lets a blob address -/

/-- The checker accepts an access at `a` through a constant base register. -/
def Addressable (b : Board) (a : Nat) : Prop :=
  ∃ val off i how, checkAddr b ⟨.constant, val⟩ off i how = .ok () ∧
    (val + off.signExtend 64).toNat = a

/-- It is the whole carveout. -/
theorem addressable_iff {a : Nat} : Addressable b a ↔ InCarveout b a := by
  constructor
  · rintro ⟨val, off, i, how, hok, rfl⟩
    unfold checkAddr at hok
    by_cases h : b.ivarsBase ≤ (val + off.signExtend 64).toNat ∧
        (val + off.signExtend 64).toNat < b.ivarsBase + b.ivarsSize
    · exact h
    · dsimp only at hok
      rw [if_neg h] at hok
      exact nomatch hok
  · intro h
    have hlt : a < 2 ^ 64 := (h.2.trans b.ivars_lt).trans (by norm_num)
    have haddr : (BitVec.ofNat 64 a + (0#16).signExtend 64).toNat = a := by
      simpa using hlt
    refine ⟨.ofNat 64 a, 0#16, 0, "load", ?_, haddr⟩
    unfold checkAddr
    dsimp only
    rw [haddr]
    exact if_pos h

/-! ### Runs -/

/-- What happens on the real-time core and to its command ring. -/
inductive Act where
  /-- `amp_cmd_ring_push`, by the application core. -/
  | push (rec : AmpCmdRec)
  /-- `amp_m7_poll_cmd`. -/
  | poll
  /-- `amp_ring_emit`, by the active probe. -/
  | emit (ts : UInt64) (value : Int64)
  /-- The active probe leaves these bytes in the carveout. -/
  | leave (bytes : Nat → UInt8)

def Act.apply (b : Board) : Act → Runtime → Runtime
  | .push rec, m      => { m with cmd := (ampCmdRingPush m.cmd rec).2 }
  | .poll, m          => (ampM7PollCmd b m).2
  | .emit ts value, m => { m with ring := (ampRingEmit m.ring ts value).2 }
  | .leave bytes, m   => { m with mem := blit m.mem b.ivarsBase b.ivarsSize bytes }

def run (b : Board) (acts : List Act) (m : Runtime) : Runtime :=
  acts.foldl (fun m act => act.apply b m) m

/-- The same, but for the bytes that a probe leaves. -/
inductive Act.Like : Act → Act → Prop where
  | same (act : Act) : Act.Like act act
  | leave (bytes bytes' : Nat → UInt8) : Act.Like (.leave bytes) (.leave bytes')

theorem poll_of_no_magic (h : m.cmd.magic ≠ ampCmdRingMagic) :
    (ampM7PollCmd b m).2 = ampM7Progress 20 m := congrArg Prod.snd (if_pos h)

theorem poll_of_magic (h : m.cmd.magic = ampCmdRingMagic) :
    (ampM7PollCmd b m).2 =
      let m' := pollLoop b (m.cmd.prod - m.cmd.cons).toNat m.cmd.cons
        (ampM7Progress 25 (ampM7Progress 20 m))
      { m' with cmd := { m'.cmd with cons := m.cmd.prod } } :=
  congrArg Prod.snd (if_neg (not_not.mpr h))

/-- Two runtimes that differ in the carveout only. -/
structure AgreeOff (b : Board) (m₁ m₂ : Runtime) : Prop where
  cmd : m₁.cmd = m₂.cmd
  ring : m₁.ring = m₂.ring
  active : m₁.active = m₂.active
  progress : m₁.progress = m₂.progress
  mem : ∀ a, ¬ InCarveout b a → m₁.mem a = m₂.mem a

namespace AgreeOff

theorem refl (m : Runtime) : AgreeOff b m m := ⟨rfl, rfl, rfl, rfl, fun _ _ => rfl⟩

/-- Runtimes that also agree on the carveout are the same. -/
theorem eq (h : AgreeOff b m₁ m₂) (hin : ∀ a, InCarveout b a → m₁.mem a = m₂.mem a) : m₁ = m₂ := by
  have hmem : m₁.mem = m₂.mem := by
    funext a
    by_cases ha : InCarveout b a
    · exact hin a ha
    · exact h.mem a ha
  obtain ⟨hcmd, hring, hactive, hprogress, _⟩ := h
  cases m₁
  cases m₂
  congr

theorem note (h : AgreeOff b m₁ m₂) (step : Nat) :
    AgreeOff b (ampM7Progress step m₁) (ampM7Progress step m₂) :=
  ⟨h.cmd, h.ring, h.active, rfl, h.mem⟩

theorem activate (h : AgreeOff b m₁ m₂) (active : Option (Fin 2)) :
    AgreeOff b { m₁ with active := active } { m₂ with active := active } :=
  ⟨h.cmd, h.ring, rfl, h.progress, h.mem⟩

theorem setCons (h : AgreeOff b m₁ m₂) (cons : BitVec 32) :
    AgreeOff b { m₁ with cmd := { m₁.cmd with cons := cons } }
      { m₂ with cmd := { m₂.cmd with cons := cons } } :=
  ⟨by rw [h.cmd], h.ring, h.active, h.progress, h.mem⟩

theorem blit (h : AgreeOff b m₁ m₂) (base n : Nat) (src : Nat → UInt8) :
    AgreeOff b { m₁ with mem := Amp.blit m₁.mem base n src }
      { m₂ with mem := Amp.blit m₂.mem base n src } := by
  refine ⟨h.cmd, h.ring, h.active, h.progress, fun a ha => ?_⟩
  simp only [Amp.blit, h.mem a ha]

/-- Whatever is put into the carveout. -/
theorem leave (h : AgreeOff b m₁ m₂) (bytes bytes' : Nat → UInt8) :
    AgreeOff b ((Act.leave bytes).apply b m₁) ((Act.leave bytes').apply b m₂) := by
  refine ⟨h.cmd, h.ring, h.active, h.progress, fun a ha => ?_⟩
  have hleft : ((Act.leave bytes).apply b m₁).mem a = m₁.mem a := if_neg ha
  have hright : ((Act.leave bytes').apply b m₂).mem a = m₂.mem a := if_neg ha
  rw [hleft, hright, h.mem a ha]

theorem installToSlot (h : AgreeOff b m₁ m₂) (slot : Fin 2) (blob : Nat → UInt8)
    (len ivarsSize : BitVec 32) :
    AgreeOff b (installToSlot b slot blob len ivarsSize m₁)
      (installToSlot b slot blob len ivarsSize m₂) :=
  (((((((h.note 45).note 50).blit _ _ _).note 55).blit _ _ _).note 60).note 70)

theorem teardown (h : AgreeOff b m₁ m₂) :
    AgreeOff b (ampM7Teardown b m₁) (ampM7Teardown b m₂) := (h.activate none).blit _ _ _

theorem runCmd (h : AgreeOff b m₁ m₂) (rec : AmpCmdRec) :
    AgreeOff b (runCmd b rec m₁) (runCmd b rec m₂) := by
  have hnote := h.note 30
  unfold Amp.runCmd
  by_cases htype : rec.type = ampCmdInstall
  · by_cases hacc : accepts b rec = true
    · simp only [if_pos htype, if_pos hacc, hnote.active]
      exact (((hnote.note 40).installToSlot _ _ _ _).activate _).note 80
    · simp only [if_pos htype, if_neg hacc]
      exact hnote
  · by_cases htear : rec.type = ampCmdTeardown
    · simp only [if_neg htype, if_pos htear]
      exact hnote.teardown
    · simp only [if_neg htype, if_neg htear]
      exact hnote

theorem pollLoop (n : Nat) : ∀ (cons : BitVec 32) {m₁ m₂ : Runtime}, AgreeOff b m₁ m₂ →
    AgreeOff b (pollLoop b n cons m₁) (pollLoop b n cons m₂) := by
  induction n with
  | zero =>
      intro cons m₁ m₂ h
      exact h
  | succ n ih =>
      intro cons m₁ m₂ h
      rw [Amp.pollLoop, Amp.pollLoop, h.cmd]
      exact ih _ (h.runCmd _)

theorem poll (h : AgreeOff b m₁ m₂) : AgreeOff b (ampM7PollCmd b m₁).2 (ampM7PollCmd b m₂).2 := by
  by_cases hmagic : m₁.cmd.magic = ampCmdRingMagic
  · rw [poll_of_magic hmagic, poll_of_magic (h.cmd ▸ hmagic), ← h.cmd]
    exact (AgreeOff.pollLoop _ m₁.cmd.cons ((h.note 20).note 25)).setCons _
  · rw [poll_of_no_magic hmagic, poll_of_no_magic (h.cmd ▸ hmagic)]
    exact h.note 20

/-- One step of both runs. -/
theorem apply {act act' : Act} (hlike : act.Like act') (h : AgreeOff b m₁ m₂) :
    AgreeOff b (act.apply b m₁) (act'.apply b m₂) := by
  cases hlike with
  | leave bytes bytes' => exact h.leave bytes bytes'
  | same =>
      cases act with
      | push rec => exact ⟨by rw [Act.apply, Act.apply, h.cmd], h.ring, h.active, h.progress, h.mem⟩
      | poll => exact h.poll
      | emit ts value =>
          exact ⟨h.cmd, by rw [Act.apply, Act.apply, h.ring], h.active, h.progress, h.mem⟩
      | leave bytes => exact h.leave bytes bytes

/-- **Two runs that differ in what probes leave agree off the carveout.** -/
theorem run {acts acts' : List Act} (hlike : List.Forall₂ Act.Like acts acts') :
    ∀ {m₁ m₂ : Runtime}, AgreeOff b m₁ m₂ → AgreeOff b (run b acts m₁) (run b acts' m₂) := by
  induction hlike with
  | nil =>
      intro m₁ m₂ h
      exact h
  | cons hact _ ih =>
      intro m₁ m₂ h
      exact ih (h.apply hact)

end AgreeOff

/-! ### An install -/

/-- A byte of the carveout after an accepted INSTALL. -/
theorem install_mem {rec : AmpCmdRec} (htype : rec.type = ampCmdInstall)
    (hacc : accepts b rec = true) {a : Nat} (ha : InCarveout b a) :
    (runCmd b rec m).mem a =
      if a < b.ivarsBase + zeroSize b rec.ivarsSize then 0 else m.mem a := by
  have hslot : ¬ (b.blobSlot (inactive m.active) ≤ a ∧
      a < b.blobSlot (inactive m.active) + rec.length.toNat) := by
    rintro ⟨hlo, hhi⟩
    have hlen := HotSwap.length_of_accepts hacc
    exact InSlot.not_inCarveout ⟨hlo, by omega⟩ ha
  unfold runCmd
  simp only [if_pos htype, if_pos hacc, ampM7Progress, installToSlot, blit]
  rw [if_neg hslot]
  exact if_congr (by simp [ha.1]) rfl rfl

theorem zeroSize_eq_iff {ivarsSize : BitVec 32} :
    zeroSize b ivarsSize = b.ivarsSize ↔ ivarsSize = 0#32 ∨ b.ivarsSize ≤ ivarsSize.toNat := by
  unfold zeroSize
  by_cases hzero : ivarsSize = 0#32
  · simp [hzero]
  · simp only [ne_eq, hzero, not_false_eq_true, if_true, false_or]
    split_ifs <;> omega

/-- **An accepted INSTALL forgets the probe before exactly if it clears the carveout**: whatever
the probes left, the runs are the same after it and every byte that a probe can address is
zero. -/
theorem install_forgets_iff {rec : AmpCmdRec} (htype : rec.type = ampCmdInstall)
    (hacc : accepts b rec = true) :
    (∀ (m₁ m₂ : Runtime) (acts₁ acts₂ : List Act), AgreeOff b m₁ m₂ →
      List.Forall₂ Act.Like acts₁ acts₂ →
      runCmd b rec (run b acts₁ m₁) = runCmd b rec (run b acts₂ m₂) ∧
      ∀ a, Addressable b a → (runCmd b rec (run b acts₁ m₁)).mem a = 0) ↔
    rec.ivarsSize = 0#32 ∨ b.ivarsSize ≤ rec.ivarsSize.toNat := by
  rw [← zeroSize_eq_iff]
  constructor
  · intro h
    -- the byte after those that are cleared
    by_contra hne
    have hlt := lt_of_le_of_ne (HotSwap.zeroSize_le rec.ivarsSize) hne
    have hin : InCarveout b (b.ivarsBase + zeroSize b rec.ivarsSize) := ⟨by omega, by omega⟩
    obtain ⟨_, hzero⟩ := h HotSwap.blank HotSwap.blank [.leave fun _ => 1] [.leave fun _ => 1]
      (.refl _) (.cons (.same _) .nil)
    have hbyte := hzero _ (addressable_iff.mpr hin)
    rw [install_mem htype hacc hin, if_neg (Nat.lt_irrefl _)] at hbyte
    have hone : (run b [.leave fun _ => 1] HotSwap.blank).mem
        (b.ivarsBase + zeroSize b rec.ivarsSize) = 1 := if_pos hin
    rw [hone] at hbyte
    exact absurd hbyte (by decide)
  · intro hsize m₁ m₂ acts₁ acts₂ hm hlike
    have hzero (m : Runtime) (a : Nat) (ha : InCarveout b a) : (runCmd b rec m).mem a = 0 := by
      rw [install_mem htype hacc ha, hsize]
      exact if_pos ha.2
    have hoff := (hm.run hlike).runCmd rec
    exact ⟨hoff.eq fun a ha => by rw [hzero _ a ha, hzero _ a ha],
      fun a ha => hzero _ a (addressable_iff.mp ha)⟩

/-- A blob of one byte that declares `ivarsSize` bytes of instance variables. -/
def install (ivarsSize : BitVec 32) : AmpCmdRec := ⟨ampCmdInstall, 1#32, 1#32, ivarsSize, fun _ => 0⟩

theorem install_forgets_iff_all :
    accepts .imx95m7 (install 0x100#32) = true ∧
    (∀ (m₁ m₂ : Runtime) (acts₁ acts₂ : List Act), AgreeOff .imx95m7 m₁ m₂ →
      List.Forall₂ Act.Like acts₁ acts₂ →
      runCmd .imx95m7 (install 0x100#32) (run .imx95m7 acts₁ m₁) =
        runCmd .imx95m7 (install 0x100#32) (run .imx95m7 acts₂ m₂) ∧
      ∀ a, Addressable .imx95m7 a →
        (runCmd .imx95m7 (install 0x100#32) (run .imx95m7 acts₁ m₁)).mem a = 0) :=
  ⟨by decide, (install_forgets_iff rfl (by decide)).mpr (.inr (by decide))⟩

/-- **A small `ivars_size` shows the new probe what the old one left.**  The old probe leaves 7 or
9 in its third word; after an accepted INSTALL of a probe with one variable the byte is still
there, at an address that the checker allows. -/
theorem small_ivars_leak :
    accepts .imx95m7 (install 4#32) = true ∧ Addressable .imx95m7 0x2003FF08 ∧
    (runCmd .imx95m7 (install 4#32)
      (run .imx95m7 [.leave fun _ => 7] HotSwap.blank)).mem 0x2003FF08 = 7 ∧
    (runCmd .imx95m7 (install 4#32)
      (run .imx95m7 [.leave fun _ => 9] HotSwap.blank)).mem 0x2003FF08 = 9 := by
  have hin : InCarveout .imx95m7 0x2003FF08 := ⟨by decide, by decide⟩
  refine ⟨by decide, addressable_iff.mpr hin, ?_, ?_⟩
  · rw [install_mem rfl (by decide) hin]
    rfl
  · rw [install_mem rfl (by decide) hin]
    rfl

end SpinelEbpf.Amp.Leak

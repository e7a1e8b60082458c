import SpinelEbpf.Amp.HotSwapCalls

/-!
# Amp — hot swap is sound

What holds in every state that the machine of `Amp.HotSwap` reaches (`reachable_sound`).  The label
of a step is the place that it writes.  `Only` says that nothing else changes, word for word of the
runtime, and `PushStep.place` and `PollStep.place` which labels each core has.
-/

namespace SpinelEbpf.Amp.HotSwap
open Spsc

variable {b : Board} {boot : Option (List UInt8)} {σ σ' : System} {w : Option Place}

/-- A command that is neither an install the gate lets through nor a teardown. -/
def Refused (b : Board) (rec : AmpCmdRec) : Prop :=
  (rec.type = ampCmdInstall → accepts b rec = false) ∧ rec.type ≠ ampCmdTeardown

/-- What changes the active slot. -/
def Takes (b : Board) (rec : AmpCmdRec) (before after : Option (Fin 2)) : Prop :=
  rec.type = ampCmdInstall ∧ accepts b rec = true ∧ after = some (inactive before) ∨
    rec.type = ampCmdTeardown ∧ after = none

/-- Where the application core writes. -/
def PushPlace : Place → Prop
  | .record slot => slot < 2
  | .prodWord    => True
  | .byte _ | .activeSlot | .progressWord | .consWord => False

/-- Where the real-time core writes, if an install goes to `target`. -/
def PollPlace (b : Board) (target : Fin 2) : Place → Prop
  | .byte a => InCarveout b a ∨ InSlot b target a
  | .activeSlot | .progressWord | .consWord => True
  | .record _ | .prodWord => False

/-- All that may have changed from `m` to `m'` is at the place `w`. -/
structure Only (w : Option Place) (m m' : Runtime) : Prop where
  mem : ∀ a, m'.mem a ≠ m.mem a → w = some (.byte a)
  active : m'.active ≠ m.active → w = some .activeSlot
  progress : m'.progress ≠ m.progress → w = some .progressWord
  cons : m'.cmd.cons ≠ m.cmd.cons → w = some .consWord
  prod : m'.cmd.prod ≠ m.cmd.prod → w = some .prodWord
  recs : ∀ i, m'.cmd.recs i ≠ m.cmd.recs i → w = some (.record i)
  magic : m'.cmd.magic = m.cmd.magic
  version : m'.cmd.version = m.cmd.version
  capacity : m'.cmd.capacity = m.cmd.capacity
  recSize : m'.cmd.recSize = m.cmd.recSize
  ring : m'.ring = m.ring

theorem Inv.complete (h : Inv b boot σ) (hidle : σ.core = .idle) :
    σ.executed ++ pending σ.m.cmd = σ.pushed := by
  have htaken : σ.taken = σ.executed.length := by
    have hok := h.core
    rw [hidle] at hok
    exact hok
  have hread := h.window.read
  have hfits := h.window.fits
  have hslot (i : Nat) : σ.m.cmd.slotOf (σ.m.cmd.cons + BitVec.ofNat 32 i) =
      (σ.taken + i) % 2 := by
    rw [h.cons, ← BitVec.ofNat_add, h.slotOf_ofNat]
  have hsub : (σ.m.cmd.prod - σ.m.cmd.cons).toNat = σ.pushed.length - σ.taken := by
    rw [h.prod, h.cons]
    exact toNat_sub_ofNat h.window.taken_le (by omega)
  have hpending : pending σ.m.cmd = σ.pushed.drop σ.taken := by
    rw [← hread, pending, hsub]
    simp only [hslot]
  obtain ⟨rest, hrest⟩ := h.executed
  rw [hpending, htaken, ← hrest, List.drop_left]

/-- The bytes a poll stores. -/
theorem PollStep.byte {a : Nat} (hs : PollStep b σ (some (.byte a)) σ') (h : Inv b boot σ) :
    InCarveout b a ∨ InSlot b (inactive σ.m.active) a := by
  have hok := h.core
  cases hs with
  | zero hc hi =>
      rw [hc] at hok
      have := hok.1
      exact .inl ⟨by omega, by omega⟩
  | wipe hc hi => exact .inl ⟨by omega, by omega⟩
  | copy hc hi =>
      rw [hc] at hok
      obtain ⟨rec, ⟨-, -, ha, rfl⟩, rfl, -⟩ := hok
      have := (length_of_accepts ha).2
      exact .inr ⟨by omega, by omega⟩

/-- **A step changes no more than the place it writes.** -/
theorem Step.only (hs : Step b σ w σ') : Only w σ.m σ'.m := by
  have at_update {α : Type} {f : Nat → α} {i j : Nat} {v : α}
      (h : Function.update f i v j ≠ f j) : i = j := by
    by_contra hne
    exact h (Function.update_of_ne (Ne.symm hne) _ _)
  rcases hs with hs | hs
  · cases hs <;> constructor <;> intros <;> first
      | exact absurd rfl ‹_›
      | rfl
      | exact congrArg (fun i => some (Place.record i)) (at_update ‹_›)
  · cases hs <;> constructor <;> intros <;> first
      | exact absurd rfl ‹_›
      | rfl
      | exact congrArg (fun a => some (Place.byte a)) (at_update ‹_›)

/-- A push writes records and the producer index. -/
theorem PushStep.place {w : Place} (hs : PushStep σ (some w) σ') (h : Inv b boot σ) :
    PushPlace w := by
  have slot_lt (prod : BitVec 32) : σ.m.cmd.slotOf prod < 2 := by
    rw [AmpCmdRing.slotOf, h.capacity]
    exact Nat.mod_lt _ (by decide)
  cases hs with
  | scribble | store => exact slot_lt _
  | publish => trivial

/-- A poll writes no record and no producer index, and only these bytes. -/
theorem PollStep.place {w : Place} (hs : PollStep b σ (some w) σ') (h : Inv b boot σ) :
    PollPlace b (inactive σ.m.active) w := by
  cases w with
  | byte a => exact hs.byte h
  | record | prodWord => cases hs
  | activeSlot | progressWord | consWord => trivial

/-- What holds of the hot swap at a state and at the steps from it. -/
structure Sound (b : Board) (boot : Option (List UInt8)) (σ : System) : Prop where
  /-- Commands take effect in push order, each once. -/
  inOrder : σ.executed <+: σ.pushed
  /-- Between polls, those that have not taken effect are in the ring. -/
  complete : σ.core = .idle → σ.executed ++ pending σ.m.cmd = σ.pushed
  /-- The active slot, if any, begins with the current blob. -/
  shows : Shows b σ.m.active σ.m.mem (current b boot σ.executed)
  /-- Memory changes only in the carveout and in the slot an install goes to. -/
  mem : ∀ w σ', Step b σ w σ' → ∀ a, σ'.m.mem a ≠ σ.m.mem a →
    InCarveout b a ∨ InSlot b (inactive σ.m.active) a
  /-- The active slot changes only as the effect of a command. -/
  active : ∀ w σ', Step b σ w σ' → σ'.m.active ≠ σ.m.active →
    ∃ rec, σ'.executed = σ.executed ++ [rec] ∧ Takes b rec σ.m.active σ'.m.active
  /-- A refused or unknown command changes nothing. -/
  refused : ∀ cons w σ', σ.core = .dispatching cons → Refused b (σ.cmdAt cons) →
    PollStep b σ w σ' → σ'.m = σ.m ∧ σ'.core = .advancing cons
  /-- A step changes the place that it writes, and no other word of the runtime. -/
  only : ∀ w σ', Step b σ w σ' → Only w σ.m σ'.m
  /-- A push writes records and the producer index only. -/
  pushWrites : ∀ w σ', PushStep σ (some w) σ' → PushPlace w
  /-- A poll writes the carveout, the slot an install goes to, the active slot, the progress word and
  the consumer index only. -/
  pollWrites : ∀ w σ', PollStep b σ (some w) σ' → PollPlace b (inactive σ.m.active) w

theorem Step.takes (hs : Step b σ w σ') (h : Inv b boot σ) (hne : σ'.m.active ≠ σ.m.active) :
    ∃ rec, σ'.executed = σ.executed ++ [rec] ∧ Takes b rec σ.m.active σ'.m.active := by
  have hw := hs.only.active hne
  have hok := h.core
  rcases hs with hs | hs
  · cases hs <;> cases hw
  · cases hs with
    | flip hc =>
        rw [hc] at hok
        obtain ⟨rec, ⟨hat, ht, ha, rfl⟩, -⟩ := hok
        obtain rfl := h.cmdAt_eq hat
        exact ⟨_, rfl, .inl ⟨ht, ha, rfl⟩⟩
    | deactivate hc =>
        rw [hc] at hok
        obtain ⟨rec, hat, ht⟩ := hok
        obtain rfl := h.cmdAt_eq hat
        exact ⟨_, rfl, .inr ⟨ht, rfl⟩⟩
    | _ => cases hw

theorem PollStep.refused {cons : BitVec 32} (hs : PollStep b σ w σ')
    (hc : σ.core = .dispatching cons) (hr : Refused b (σ.cmdAt cons)) :
    σ'.m = σ.m ∧ σ'.core = .advancing cons := by
  have at_cons {cons' : BitVec 32} (h : σ.core = .dispatching cons') : cons' = cons := by
    rw [hc] at h
    exact (Core.dispatching.inj h).symm
  cases hs with
  | skip h =>
      obtain rfl := at_cons h
      exact ⟨rfl, rfl⟩
  | install h ht ha =>
      obtain rfl := at_cons h
      rw [hr.1 ht] at ha
      cases ha
  | teardown h ht =>
      obtain rfl := at_cons h
      exact absurd ht hr.2
  | poll h | note h | leave h | enter h | load h | found h | zero h | zeroed h | copy h | copied h
  | flip h | deactivate h | wipe h | wiped h | advance h | drained h | commit h =>
      rw [hc] at h
      cases h

section Runs

variable {ampEmit ampKtime : BitVec 32} {st : AmpBlobStaging} {m : Runtime}

/-- A run of one core alone is one of the interleavings. -/
theorem Reachable.pushes (h : Reachable b ampEmit ampKtime st m σ) (hs : PushSteps σ σ') :
    Reachable b ampEmit ampKtime st m σ' :=
  h.trans (Relation.ReflTransGen.mono (fun _ _ ⟨w, hw⟩ => ⟨w, .inl hw⟩) _ _ hs)

theorem Reachable.polls (h : Reachable b ampEmit ampKtime st m σ) (hs : PollSteps b σ σ') :
    Reachable b ampEmit ampKtime st m σ' :=
  h.trans (Relation.ReflTransGen.mono (fun _ _ ⟨w, hw⟩ => ⟨w, .inr hw⟩) _ _ hs)

end Runs

/-- **Hot swap is sound.**  In every state that any interleaving of pushes and polls reaches after
the runtime's start, commands have taken effect exactly once and in push order, and the active
slot begins with the blob of the last accepted install that no teardown follows; the steps from
there write only what they should. -/
theorem reachable_sound {ampEmit ampKtime : BitVec 32} {st : AmpBlobStaging} {m : Runtime}
    (h : Reachable b ampEmit ampKtime st m σ) : Sound b (bootBlob b st) σ := by
  have hi := inv_of_reachable h
  refine
    { inOrder := hi.executed
      complete := hi.complete
      shows := hi.shows
      mem := fun w σ' hs a ha => ?_
      active := fun w σ' hs hne => hs.takes hi hne
      refused := fun cons w σ' hc hr hs => hs.refused hc hr
      only := fun w σ' hs => hs.only
      pushWrites := fun w σ' hs => hs.place hi
      pollWrites := fun w σ' hs => hs.place hi }
  obtain rfl := hs.only.mem a ha
  rcases hs with hs | hs
  · cases hs
  · exact hs.byte hi

theorem reachable_sound_install :
    ∃ σ, σ.executed = [oneByte] ∧ σ.m.active = some 0 ∧ Sound .imx95m7 none σ := by
  have hstart : Reachable .imx95m7 0 0 unstaged blank _ := .refl
  have hpush := hstart.pushes (push_call oneByte rfl)
  exact ⟨_, rfl, rfl, reachable_sound (hpush.polls (poll_run rfl rfl))⟩

/-- The first store of a poll is the progress word, which lies outside the slots and the
carveout. -/
theorem poll_writes_progress :
    ∃ σ σ', Reachable .imx95m7 0 0 unstaged blank σ ∧
      Step .imx95m7 σ (some .progressWord) σ' ∧
      Place.progressWord.Covers .imx95m7 0x88431000 ∧ ¬ InCarveout .imx95m7 0x88431000 ∧
      ∀ s, ¬ InSlot .imx95m7 s 0x88431000 := by
  refine ⟨_, _, .single ⟨none, .inr (.poll rfl)⟩, .inr (.note rfl), ?_, ?_, ?_⟩
  · simp [Place.Covers, Board.progressBase]
  · simp [InCarveout, Board.ivarsBase, Board.ivarsSize]
  · simp [InSlot, Board.blobSlot, Board.helperBase, ampBlobMax]

end SpinelEbpf.Amp.HotSwap
